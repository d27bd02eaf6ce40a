import AetherLink.Proofs.Session

set_option autoImplicit false

/-! # Steps by what they do to the disk

A checkpoint is in progress at `run` itself (agent `none`) or at a worker (agent `some i`). A step
of a session either takes one checkpoint on, begins or ends one, writes a piece of a chunk to a
sink, or flushes a sink or removes a record in the completeness loop; every other step leaves the
disk and the checkpoints alone. -/

namespace AetherLink

open Bytes Storage

/-- The file being checkpointed by a worker, and how far it is. -/
def Worker.checkpoint? (w : Worker) : Option (UInt64 × CheckpointPc) :=
  match w.pc, w.current with
  | .checkpoint pc, some c => some (c.fileId, pc)
  | _, _ => none

def MainPc.checkpoint? : MainPc → Option (UInt64 × CheckpointPc)
  | .saving _ id _ pc => some (id, pc)
  | .shelving id pc => some (id, pc)
  | _ => none

/-- The checkpoint in progress at an agent: worker `i`, or `run`. -/
def Session.checkpointOf (s : Session) : Option Nat → Option (UInt64 × CheckpointPc)
  | none => s.main.checkpoint?
  | some i => s.workers[i]?.bind Worker.checkpoint?

/-- Nobody checkpoints in a session that has just started. -/
theorem Session.checkpointOf_start (st : OfferState) (streamCount : UInt32) (a : Option Nat) :
    (Session.start st streamCount).checkpointOf a = none := by
  cases a <;> simp [checkpointOf, start, MainPc.checkpoint?]

theorem Worker.checkpoint?_eq_some {w : Worker} {id : UInt64} {pc : CheckpointPc}
    (h : w.checkpoint? = some (id, pc)) :
    w.pc = .checkpoint pc ∧ ∃ c, w.current = some c ∧ c.fileId = id := by
  unfold checkpoint? at h
  split at h
  · next pc' c hpc hcur =>
      cases h
      exact ⟨hpc, c, hcur, rfl⟩
  · cases h

theorem Worker.checkpoint?_of_pc {w : Worker} (h : ∀ pc, w.pc ≠ .checkpoint pc) :
    w.checkpoint? = none := by
  unfold checkpoint?
  split
  · next pc c hpc hcur => exact absurd hpc (h pc)
  · rfl

theorem MainPc.joined_of_checkpoint? {pc : MainPc} {x : UInt64 × CheckpointPc}
    (h : pc.checkpoint? = some x) : pc.Joined := by
  cases pc with
  | saving error id todo cp => trivial
  | shelving id cp => trivial
  | _ => cases h

/-- **One checkpoint at a time.** No file is being checkpointed by two agents. -/
theorem Session.Locks.exclusive {s : Session} (h : s.Locks) {a b : Option Nat} {id : UInt64}
    {pc pc' : CheckpointPc} (ha : s.checkpointOf a = some (id, pc))
    (hb : s.checkpointOf b = some (id, pc')) : a = b := by
  have hworker : ∀ (i : Nat) pc, s.checkpointOf (some i) = some (id, pc) →
      ∃ w c, s.workers[i]? = some w ∧ w.pc = .checkpoint pc ∧ w.current = some c ∧
        c.fileId = id := by
    intro i pc hi
    obtain ⟨w, hw, hcp⟩ := Option.bind_eq_some_iff.1 hi
    obtain ⟨hpc, c, hc, hid⟩ := Worker.checkpoint?_eq_some hcp
    exact ⟨w, c, hw, hpc, hc, hid⟩
  have hmain : ∀ (i : Nat) pc pc', s.checkpointOf none = some (id, pc) →
      s.checkpointOf (some i) = some (id, pc') → False := by
    intro i pc pc' hn hi
    obtain ⟨w, c, hw, hpc, -, -⟩ := hworker i pc' hi
    obtain ⟨r, hr⟩ := h.ended (MainPc.joined_of_checkpoint? hn) w (List.mem_of_getElem? hw)
    rw [hpc] at hr
    cases hr
  cases a with
  | none =>
      cases b with
      | none => rfl
      | some j => exact (hmain j _ _ ha hb).elim
  | some i =>
      cases b with
      | none => exact (hmain i _ _ hb ha).elim
      | some j =>
          obtain ⟨w, c, hw, hpc, hc, hid⟩ := hworker i pc ha
          obtain ⟨v, d, hv, hpc', hd, hid'⟩ := hworker j pc' hb
          have hin : w.pc.Locked := by simp [hpc, WorkerPc.Locked]
          have hin' : v.pc.Locked := by simp [hpc', WorkerPc.Locked]
          rw [h.unique i j w v c d hw hv hin hin' hc hd (hid.trans hid'.symm)]

/-- A step, by what it does to the disk and to the checkpoints in progress. -/
inductive Turn (p : Params) (s s' : Session) (e : Effect) : Prop
  | elsewhere (hplain : e.Plain) (hcp : ∀ a, s'.checkpointOf a = s.checkpointOf a)
  | begins (a : Option Nat) (id : UInt64) (hplain : e.Plain)
      (hpc' : s'.checkpointOf a = some (id, .snapshot))
      (hothers : ∀ b, b ≠ a → s'.checkpointOf b = s.checkpointOf b)
  | goesOn (a : Option Nat) (id : UInt64) (pc pc' : CheckpointPc) (st : FileState)
      (hst : s.env.files.lookup id = some st)
      (hmove : CheckpointMove p.blake3 s.env.disk st pc (.goOn pc') e)
      (hpc : s.checkpointOf a = some (id, pc)) (hpc' : s'.checkpointOf a = some (id, pc'))
      (hothers : ∀ b, b ≠ a → s'.checkpointOf b = s.checkpointOf b)
  | finishes (a : Option Nat) (id : UInt64) (pc : CheckpointPc) (r : Except Error Unit)
      (st : FileState) (hst : s.env.files.lookup id = some st)
      (hmove : CheckpointMove p.blake3 s.env.disk st pc (.done r) e)
      (hpc : s.checkpointOf a = some (id, pc)) (hpc' : s'.checkpointOf a = none)
      (hothers : ∀ b, b ≠ a → s'.checkpointOf b = s.checkpointOf b)
  | sinkWrite (w : Worker) (c : Current) (st : FileState) (done n : Nat) (hw : w ∈ s.workers)
      (hpc : w.pc = .write done) (hcur : w.current = some c)
      (hst : s.env.files.lookup c.fileId = some st) (hfits : done + n ≤ w.buf.length)
      (heff : e = .pwrite st.sink.ino (c.start + done) (slice w.buf done n))
      (hcp : ∀ a, s'.checkpointOf a = s.checkpointOf a)
  | sinkSync (id : UInt64) (st : FileState) (hst : s.env.files.lookup id = some st)
      (hmain : s.main.Joined) (heff : e = .fsync st.sink.ino)
      (hcp : ∀ a, s'.checkpointOf a = s.checkpointOf a)
  | removes (id : UInt64) (st : FileState) (hst : s.env.files.lookup id = some st)
      (path : FilePath) (hpath : path = statePath st.sink.path ∨ path = tmpPath st.sink.path)
      (hmain : s.main.Joined) (heff : e = .unlink path)
      (hcp : ∀ a, s'.checkpointOf a = s.checkpointOf a)

theorem plain_quiet : Effect.Plain .quiet := fun _ => rfl

/-- Replacing worker `i` changes the checkpoint of agent `some i` only. -/
theorem checkpointOf_set {s : Session} {i : Nat} {w w' : Worker} (hw : s.workers[i]? = some w)
    (env : Env) (a : Option Nat) :
    ({ s with env := env, workers := s.workers.set i w' } : Session).checkpointOf a
      = if a = some i then w'.checkpoint? else s.checkpointOf a := by
  have hlt := (List.getElem?_eq_some_iff.1 hw).1
  cases a with
  | none => rfl
  | some j =>
      simp only [Session.checkpointOf, List.getElem?_set, Option.some.injEq]
      by_cases hij : i = j
      · subst hij
        simp [hlt]
      · have hji : ¬j = i := fun h => hij h.symm
        simp [hij, hji]

theorem checkpointOf_self {s : Session} {i : Nat} {w : Worker} (hw : s.workers[i]? = some w) :
    s.checkpointOf (some i) = w.checkpoint? := by
  simp [Session.checkpointOf, hw]

/-- A worker's step, for a worker whose checkpoint does not change. -/
theorem checkpointOf_set_same {s : Session} {i : Nat} {w w' : Worker}
    (hw : s.workers[i]? = some w) (h : w'.checkpoint? = w.checkpoint?) (env : Env)
    (a : Option Nat) :
    ({ s with env := env, workers := s.workers.set i w' } : Session).checkpointOf a
      = s.checkpointOf a := by
  rw [checkpointOf_set hw]
  split
  · next ha => rw [h, ha, checkpointOf_self hw]
  · rfl

theorem turn_of_worker {p : Params} {s : Session} {i : Nat} {w w' : Worker} {e : Effect}
    (hw : s.workers[i]? = some w) (hmove : WorkerMove p s.env w w' e) :
    Turn p s { s with env := s.env.apply e, workers := s.workers.set i w' } e := by
  have hmem := List.mem_of_getElem? hw
  have hothers : ∀ b, b ≠ some i →
      ({ s with env := s.env.apply e, workers := s.workers.set i w' } : Session).checkpointOf b
        = s.checkpointOf b := by
    intro b hb
    rw [checkpointOf_set hw, if_neg hb]
  -- a step between two places that are no checkpoint, with an effect that is not on the disk
  have hplain : ∀ {e : Effect} {w' : Worker}, e.Plain → (∀ pc, w.pc ≠ .checkpoint pc) →
      (∀ pc, w'.pc ≠ .checkpoint pc) →
      Turn p s { s with env := s.env.apply e, workers := s.workers.set i w' } e := by
    intro e w' he hpc hpc'
    refine .elsewhere he (checkpointOf_set_same hw ?_ _)
    rw [Worker.checkpoint?_of_pc hpc, Worker.checkpoint?_of_pc hpc']
  cases hmove with
  | skips hpc hlen hdec htype => exact hplain plain_quiet (by simp [hpc]) (by simp [hpc])
  | fails inbox err hpc hrun =>
      refine hplain plain_quiet (fun pc hcp => hpc ?_) nofun
      rw [hcp]
      trivial
  | buffers hpc hcur hn =>
      refine hplain plain_quiet (by simp [hpc]) fun pc => ?_
      simp only
      split <;> nofun
  | @writes c st done n hpc hcur hs hn hfits =>
      have hafter : ({ w with pc := .write (done + n) } : Worker).checkpoint? = none :=
        Worker.checkpoint?_of_pc nofun
      refine .sinkWrite w c st done n hmem hpc hcur hs hfits rfl (checkpointOf_set_same hw ?_ _)
      rw [hafter, Worker.checkpoint?_of_pc (by simp [hpc])]
  | reports hpc =>
      refine hplain (fun _ => rfl) (by simp [hpc]) fun pc => ?_
      simp only
      split <;> nofun
  | @resets c hpc hcur =>
      refine .begins (some i) c.fileId (fun _ => rfl) ?_ hothers
      rw [checkpointOf_set hw, if_pos rfl]
      simp [Worker.checkpoint?, hcur]
  | @checkpoints c st pc pc' e hpc hcur hs hmove =>
      refine .goesOn (some i) c.fileId pc pc' st hs hmove ?_ ?_ hothers
      · rw [checkpointOf_self hw]
        simp [Worker.checkpoint?, hpc, hcur]
      · rw [checkpointOf_set hw, if_pos rfl]
        simp [Worker.checkpoint?, hcur]
  | @checkpointed c st pc r e hpc hcur hs hmove =>
      refine .finishes (some i) c.fileId pc r st hs hmove ?_ ?_ hothers
      · rw [checkpointOf_self hw]
        simp [Worker.checkpoint?, hpc, hcur]
      · rw [checkpointOf_set hw, if_pos rfl]
        exact Worker.checkpoint?_of_pc nofun
  | _ => exact hplain (fun _ => rfl) (by simp [*]) nofun

theorem turn_of_main {p : Params} {s : Session} {main : MainPc} {e : Effect}
    (hmove : MainMove p s.env s.main main e) :
    Turn p s { s with env := s.env.apply e, main := main } e := by
  have hothers : ∀ b, b ≠ none →
      ({ s with env := s.env.apply e, main := main } : Session).checkpointOf b
        = s.checkpointOf b := by
    intro b hb
    cases b with
    | none => exact absurd rfl hb
    | some i => rfl
  have hsame : main.checkpoint? = s.main.checkpoint? → ∀ b,
      ({ s with env := s.env.apply e, main := main } : Session).checkpointOf b
        = s.checkpointOf b := by
    intro h b
    cases b with
    | none => exact h
    | some i => rfl
  generalize hpc : s.main = pc at hmove
  cases hmove with
  | saves error id todo =>
      exact .begins none id plain_quiet rfl hothers
  | saving error todo hs hmove =>
      exact .goesOn none _ _ _ _ hs hmove (by rw [Session.checkpointOf, hpc]; rfl) rfl hothers
  | saved error todo hs hmove =>
      exact .finishes none _ _ _ _ hs hmove (by rw [Session.checkpointOf, hpc]; rfl) rfl hothers
  | incomplete todo hs hc => exact .begins none _ plain_quiet rfl hothers
  | shelving hs hmove =>
      exact .goesOn none _ _ _ _ hs hmove (by rw [Session.checkpointOf, hpc]; rfl) rfl hothers
  | shelved hs hmove =>
      exact .finishes none _ _ _ _ hs hmove (by rw [Session.checkpointOf, hpc]; rfl) rfl hothers
  | aborts hs he =>
      refine .elsewhere ?_ (hsame (by rw [hpc]; rfl))
      rcases he with rfl | rfl <;> exact fun _ => rfl
  | syncs todo hs => exact .sinkSync _ _ hs (by rw [hpc]; trivial) rfl (hsame (by rw [hpc]; rfl))
  | drops todo hs he =>
      rcases he with rfl | rfl
      · exact .elsewhere plain_quiet (hsame (by rw [hpc]; rfl))
      · exact .removes _ _ hs _ (Or.inl rfl) (by rw [hpc]; trivial) rfl (hsame (by rw [hpc]; rfl))
  | dropsTmp todo hs he =>
      rcases he with rfl | rfl
      · exact .elsewhere plain_quiet (hsame (by rw [hpc]; rfl))
      · exact .removes _ _ hs _ (Or.inr rfl) (by rw [hpc]; trivial) rfl (hsame (by rw [hpc]; rfl))
  | _ => exact .elsewhere (fun _ => rfl) (hsame (by rw [hpc]; rfl))

/-- **Every step of a session is a turn.** -/
theorem SessionMove.turn {p : Params} {s s' : Session} {e : Effect} (h : SessionMove p s s' e) :
    Turn p s s' e := by
  cases h with
  | arrives hw hopen inbox closed =>
      refine .elsewhere plain_quiet (checkpointOf_set_same hw ?_ s.env)
      rfl
  | worker hw hmove => exact turn_of_worker hw hmove
  | accepts hmain =>
      refine .elsewhere plain_quiet fun a => ?_
      cases a with
      | none => simp [Session.checkpointOf, hmain, MainPc.checkpoint?]
      | some j =>
          simp only [Session.checkpointOf, List.getElem?_append]
          split
          · rfl
          · next hj =>
              rw [List.getElem?_eq_none (l := s.workers) (by omega)]
              cases hf : ([Worker.fresh] : List Worker)[j - s.workers.length]? with
              | none => rfl
              | some w =>
                  obtain rfl := List.mem_singleton.1 (List.mem_of_getElem? hf)
                  rfl
  | refuses hmain error =>
      refine .elsewhere plain_quiet fun a => ?_
      cases a with
      | none => simp [Session.checkpointOf, hmain, MainPc.checkpoint?]
      | some j => rfl
  | joins hmain hended horder hnext =>
      refine .elsewhere plain_quiet fun a => ?_
      cases a with
      | none =>
          rcases hnext with ⟨error, -, rfl⟩ | ⟨-, rfl⟩ <;>
            simp [Session.checkpointOf, hmain, MainPc.checkpoint?]
      | some j => rfl
  | main hmove => exact turn_of_main hmove

end AetherLink
