import AetherLink.Proofs.Counter
import AetherLink.Proofs.Names

set_option autoImplicit false

/-! # Announcing the files that are complete

The worker whose `set` completes a bitmap announces the file. So a file is announced once if its
bitmap was incomplete when the session began, and never if it was complete then: an empty file, or
one of which nothing was missing. -/

namespace AetherLink

/-! ## What a worker owes -/

/-- The places between completing a bitmap and announcing the file. -/
def WorkerPc.announcing : WorkerPc → Bool
  | .count complete => complete
  | .report complete _ => complete
  | .announce => true
  | _ => false

/-- How many announcements of the file `id` the worker owes. -/
def Worker.owes (id : UInt64) (w : Worker) : Nat :=
  (w.pc.announcing && w.current.any fun c => c.fileId == id).toNat

theorem Worker.owes_of_silent {w : Worker} (h : w.pc.announcing = false) (id : UInt64) :
    w.owes id = 0 := by
  rw [owes, h]
  rfl

theorem Worker.owes_of_ne {w : Worker} {c : Current} (hcur : w.current = some c) {id : UInt64}
    (hid : c.fileId ≠ id) : w.owes id = 0 := by
  simp [owes, hcur, hid]

theorem Worker.owes_self {w : Worker} {c : Current} (hcur : w.current = some c) :
    w.owes c.fileId = w.pc.announcing.toNat := by
  simp [owes, hcur]

/-- A step of a worker by what it does to the announcements it owes. -/
inductive Worker.Announces (env : Env) (w w' : Worker) : Effect → Prop
  | keeps {e : Effect} (hset : ∀ id i, e ≠ .setBit id i)
      (htell : ∀ id path, e ≠ .notify (.fileCompleted id path))
      (howes : ∀ id, w'.owes id = w.owes id)
      (hsame : w'.pc.announcing = true → w.pc.announcing = true ∧ w'.current = w.current) :
      Announces env w w' e
  | marks {c : Current} {st : FileState} {b : ChunkBitmap} (hcur : w.current = some c)
      (hcur' : w'.current = some c) (hhand : w.inHand = some (c.fileId, c.chunkIndex))
      (hst : env.files.lookup c.fileId = some st) (hset : st.bitmap.set c.chunkIndex = .ok b)
      (hpc : w.pc.announcing = false) (hpc' : w'.pc.announcing = b.isComplete) :
      Announces env w w' (.setBit c.fileId c.chunkIndex)
  | tells {c : Current} {st : FileState} (hcur : w.current = some c)
      (hcur' : w'.current = some c) (hst : env.files.lookup c.fileId = some st)
      (hpc : w.pc.announcing = true) (hpc' : w'.pc.announcing = false) :
      Announces env w w' (.notify (.fileCompleted c.fileId st.sink.path))

section

variable {p : Params} {env : Env} {w w' : Worker} {e : Effect} {io : IoAct}

theorem Worker.Announces.silent (hset : ∀ id i, e ≠ .setBit id i)
    (htell : ∀ id path, e ≠ .notify (.fileCompleted id path)) (hpc : w.pc.announcing = false)
    (hpc' : w'.pc.announcing = false) : w.Announces env w' e := by
  refine .keeps hset htell (fun id => ?_) fun h => ?_
  · rw [Worker.owes_of_silent hpc, Worker.owes_of_silent hpc']
  · rw [hpc'] at h
    cases h

/-- **Every worker step is one of the three**; from completing the bitmap to announcing the file there
    is nothing that can fail. -/
theorem Worker.step_announces (h : w.step p env io = some (w', e)) : w.Announces env w' e := by
  by_cases hpc : w.pc.announcing = true
  · have hpast : w.pc ≠ .header := by
      intro hheader
      rw [hheader] at hpc
      cases hpc
    obtain ⟨c, s, hcur, hs, hchunk⟩ := Worker.step_inside hpast h
    -- the next place is announcing too, and no bit is set
    have hkeeps : ∀ {v : Worker} {e : Effect}, (∀ id i, e ≠ .setBit id i) →
        (∀ id path, e ≠ .notify (.fileCompleted id path)) → v.current = w.current →
        v.pc.announcing = true → w.Announces env v e := by
      intro v e hset htell hcur' hpc'
      exact .keeps hset htell (fun id => by rw [owes, owes, hpc, hpc', hcur'])
        fun _ => ⟨hpc, hcur'⟩
    cases hplace : w.pc with
    | count complete =>
        rw [hplace] at hpc hchunk
        cases io with
        | next =>
            cases hchunk
            exact hkeeps (fun _ _ heq => by cases heq) (fun _ _ heq => by cases heq) rfl hpc
        | _ => cases hchunk
    | report complete done =>
        rw [hplace] at hpc hchunk
        obtain rfl : complete = true := hpc
        cases io with
        | next =>
            cases hchunk
            exact hkeeps (fun _ _ heq => by cases heq) (fun _ _ heq => by cases heq) rfl rfl
        | _ => cases hchunk
    | announce =>
        rw [hplace] at hchunk
        cases io with
        | next =>
            cases hchunk
            exact .tells hcur hcur hs hpc rfl
        | _ => cases hchunk
    | _ =>
        rw [hplace] at hpc
        cases hpc
  · have hsilent : w.pc.announcing = false := by simpa using hpc
    cases Worker.step_moves h with
    | @marks c st b hpc hcur hs hset =>
        exact .marks hcur hcur (by simp [inHand, hpc, hcur, WorkerPc.unmarked]) hs hset hsilent rfl
    | skips hpc hlen hdec htype =>
        exact .silent (fun _ _ heq => by cases heq) (fun _ _ heq => by cases heq) hsilent hsilent
    | buffers hpc hcur hn =>
        refine .silent (fun _ _ heq => by cases heq) (fun _ _ heq => by cases heq) hsilent ?_
        simp only
        split <;> rfl
    | @counts c complete hpc hcur =>
        rw [hpc] at hsilent
        obtain rfl : complete = false := hsilent
        exact .silent (fun _ _ heq => by cases heq) (fun _ _ heq => by cases heq)
          (by rw [hpc]; rfl) rfl
    | @reports complete done hpc =>
        rw [hpc] at hsilent
        obtain rfl : complete = false := hsilent
        exact .silent (fun _ _ heq => by cases heq) (fun _ _ heq => by cases heq)
          (by rw [hpc]; rfl) rfl
    | announces hpc hcur hs =>
        rw [hpc] at hsilent
        cases hsilent
    | checkpoints hpc hcur hs hmove =>
        exact .silent (fun id i => hmove.not_setBit id i)
          (fun id path => by cases hmove <;> exact fun heq => by cases heq) hsilent rfl
    | checkpointed hpc hcur hs hmove =>
        exact .silent (fun id i => hmove.not_setBit id i)
          (fun id path => by cases hmove <;> exact fun heq => by cases heq) hsilent rfl
    | _ => exact .silent (fun _ _ heq => by cases heq) (fun _ _ heq => by cases heq) hsilent rfl

end

/-! ## The files -/

/-- A complete bitmap has every bit that can be set. -/
theorem ChunkBitmap.isComplete_of_set {b b' : ChunkBitmap} (hwf : b.Wf) {i : Nat}
    (hset : b.set i = .ok b') (hcomplete : b.isComplete = true) : b'.isComplete = true := by
  rw [(hwf.set hset).isComplete_iff, count_of_set hset]
  intro j hj
  rw [has_of_set hwf hset, hwf.isComplete_iff.1 hcomplete j hj, Bool.true_or]

/-- A bitmap without a bit that can be set is not complete. -/
theorem ChunkBitmap.isComplete_eq_false {b b' : ChunkBitmap} (hwf : b.Wf) {i : Nat}
    (hset : b.set i = .ok b') (hclear : b.has i = false) : b.isComplete = false := by
  rw [Bool.eq_false_iff]
  intro hcomplete
  rw [hwf.isComplete_iff.1 hcomplete i (lt_count_of_set hset)] at hclear
  cases hclear

/-- A complete file stays complete. -/
theorem Files.Wf.isComplete_onFile {files : Files} (h : files.Wf) (e : Effect) {id : UInt64}
    {st : FileState} (hst : files.lookup id = some st) (hcomplete : st.bitmap.isComplete = true) :
    (e.onFile id st).bitmap.isComplete = true := by
  rcases e.bitmap_onFile id st with heq | ⟨i, b, -, hset, heq⟩
  · rw [heq]
    exact hcomplete
  · rw [heq]
    exact ChunkBitmap.isComplete_of_set (h id st hst) hset hcomplete

/-! ## Announced files are complete -/

/-- The files of which an announcement is owed are complete. -/
structure Session.Vouches (s : Session) : Prop where
  wf : s.env.files.Wf
  complete : ∀ w ∈ s.workers, w.pc.announcing = true → ∀ c st, w.current = some c →
    s.env.files.lookup c.fileId = some st → st.bitmap.isComplete = true

/-- No step announces a file that is not complete, or another path than the file's. -/
def Session.AnnouncesComplete (p : Params) (s : Session) (a : SessionAct) : Prop :=
  ∀ s' id path, s.stepEffect p a = some (s', .notify (.fileCompleted id path)) →
    ∃ st, s.env.files.lookup id = some st ∧ st.sink.path = path ∧ st.bitmap.isComplete = true

section

variable {p : Params} {s s' : Session} {a : SessionAct} {e : Effect}

/-- A step of a session, by what it does to the announcements its workers owe. -/
inductive Session.Announces (s s' : Session) (e : Effect) : Prop
  | worker {i : Nat} {w w' : Worker} (hw : s.workers[i]? = some w)
      (hannounces : w.Announces s.env w' e)
      (heq : s' = { s with env := s.env.apply e, workers := s.workers.set i w' })
  | elsewhere (hset : ∀ id i, e ≠ .setBit id i)
      (htell : ∀ id path, e ≠ .notify (.fileCompleted id path)) (henv : s'.env = s.env.apply e)
      (hsum : ∀ id, (s'.workers.map (Worker.owes id)).sum = (s.workers.map (Worker.owes id)).sum)
      (hsame : ∀ w' ∈ s'.workers, w'.pc.announcing = true →
        ∃ w ∈ s.workers, w.pc.announcing = true ∧ w'.current = w.current)

theorem MainMove.not_notify {env : Env} {pc pc' : MainPc} (h : MainMove p env pc pc' e)
    (event : ProgressEvent) : e ≠ .notify event := by
  have hno : ∀ {st : FileState} {cp : CheckpointPc} {next : CheckpointNext} {e : Effect},
      CheckpointMove p.blake3 env.disk st cp next e → e ≠ .notify event := by
    intro st cp next e hmove
    cases hmove <;> exact fun heq => by cases heq
  cases h with
  | saving error todo hs hmove => exact hno hmove
  | saved error todo hs hmove => exact hno hmove
  | shelving hs hmove => exact hno hmove
  | shelved hs hmove => exact hno hmove
  | aborts hs he => rcases he with rfl | rfl <;> exact fun heq => by cases heq
  | drops todo hs he => rcases he with rfl | rfl <;> exact fun heq => by cases heq
  | dropsTmp todo hs he => rcases he with rfl | rfl <;> exact fun heq => by cases heq
  | _ => exact fun heq => by cases heq

/-- A worker on whose stream something arrives owes what it did. -/
theorem Session.Announces.arrives {i : Nat} {w w' : Worker} (hw : s.workers[i]? = some w)
    (hpc : w'.pc = w.pc) (hcur : w'.current = w.current) :
    s.Announces { s with workers := s.workers.set i w' } .quiet := by
  refine .elsewhere (fun _ _ heq => by cases heq) (fun _ _ heq => by cases heq) rfl (fun id => ?_)
    fun v hv ha => ?_
  · have hset := List.sum_map_set hw w' (Worker.owes id)
    have hsame : w'.owes id = w.owes id := by rw [Worker.owes, Worker.owes, hpc, hcur]
    simp only
    omega
  · rcases List.mem_or_eq_of_mem_set hv with hold | rfl
    · exact ⟨v, hold, ha, rfl⟩
    · exact ⟨w, List.mem_of_getElem? hw, hpc ▸ ha, hcur⟩

/-- A step that leaves the workers alone. -/
theorem Session.Announces.others {main : MainPc} (hset : ∀ id i, e ≠ .setBit id i)
    (htell : ∀ id path, e ≠ .notify (.fileCompleted id path)) :
    s.Announces { s with env := s.env.apply e, main := main } e :=
  .elsewhere hset htell rfl (fun _ => rfl) fun w hw ha => ⟨w, hw, ha, rfl⟩

/-- **Every session step is a worker's, or leaves the announcements alone.** -/
theorem Session.stepEffect_announces (h : s.stepEffect p a = some (s', e)) : s.Announces s' e := by
  have hquiet : ∀ main, s.Announces { s with main := main } .quiet := fun main =>
    .others (e := .quiet) (fun _ _ heq => by cases heq) fun _ _ heq => by cases heq
  cases Session.stepEffect_cases h with
  | deliver hw hopen => exact .arrives hw rfl rfl
  | close hw hopen => exact .arrives hw rfl rfl
  | worker hw hstep => exact .worker hw (Worker.step_announces hstep) rfl
  | accept hmain =>
      refine .elsewhere (fun _ _ heq => by cases heq) (fun _ _ heq => by cases heq) rfl
        (fun id => by simp [Worker.fresh, Worker.owes]) fun w hw ha => ?_
      rcases List.mem_append.1 hw with hold | hnew
      · exact ⟨w, hold, ha, rfl⟩
      · rw [List.mem_singleton.1 hnew] at ha
        cases ha
  | refuse hmain => exact hquiet _
  | join hmain hended horder hnext => exact hquiet _
  | main hstep =>
      have hmove := mainStep_moves hstep
      exact .others (fun id i => hmove.not_setBit id i) fun id path => hmove.not_notify _

theorem Session.Vouches.step (h : s.Vouches) (hannounces : s.Announces s' e) : s'.Vouches := by
  have hkept : ∀ {c : Current} {st' : FileState},
      (s.env.apply e).files.lookup c.fileId = some st' →
      (∀ st, s.env.files.lookup c.fileId = some st → st.bitmap.isComplete = true) →
      st'.bitmap.isComplete = true := by
    intro c st' hst' hall
    obtain ⟨st, hst, rfl, -⟩ := Env.lookup_apply hst'
    exact h.wf.isComplete_onFile e hst (hall st hst)
  cases hannounces with
  | elsewhere hset htell henv hsum hsame =>
      refine ⟨by rw [henv]; exact h.wf.apply e, fun w' hw' ha c st' hcur hst' => ?_⟩
      obtain ⟨w, hw, ha', hcur'⟩ := hsame w' hw' ha
      rw [henv] at hst'
      exact hkept hst' fun st hst => h.complete w hw ha' c st (hcur' ▸ hcur) hst
  | @worker i w w' hw hannounces heq =>
      subst heq
      refine ⟨h.wf.apply e, fun v hv ha d st' hcur hst' => ?_⟩
      rcases List.mem_or_eq_of_mem_set hv with hold | rfl
      · exact hkept hst' fun st hst => h.complete v hold ha d st hcur hst
      · cases hannounces with
        | keeps hset htell howes hsame =>
            obtain ⟨ha', hcur'⟩ := hsame ha
            exact hkept hst' fun st hst =>
              h.complete w (List.mem_of_getElem? hw) ha' d st (hcur' ▸ hcur) hst
        | marks hcur' hcur'' hhand hst hset hpc hpc' =>
            obtain rfl := Option.some.inj (hcur''.symm.trans hcur)
            obtain ⟨st₀, hst₀, rfl, -⟩ := Env.lookup_apply hst'
            obtain rfl := Option.some.inj (hst.symm.trans hst₀)
            simp only [Effect.onFile, if_true, hset]
            rw [← hpc', ha]
        | tells hcur' hcur'' hst hpc hpc' =>
            rw [hpc'] at ha
            cases ha

/-- **Whoever is announced is complete.** -/
theorem Session.Vouches.announcesComplete (h : s.Vouches) (a : SessionAct) :
    s.AnnouncesComplete p a := by
  intro s' id path hstep
  cases Session.stepEffect_announces hstep with
  | elsewhere hset htell henv hsum hsame => exact absurd rfl (htell id path)
  | @worker i w w' hw hannounces heq =>
      cases hannounces with
      | keeps hset htell howes hsame => exact absurd rfl (htell id path)
      | tells hcur hcur' hst hpc hpc' =>
          exact ⟨_, hst, rfl, h.complete w (List.mem_of_getElem? hw) hpc _ _ hcur hst⟩

/-! ## Announced files are announced once -/

/-- How often the file `id` has been announced at the path. -/
def Env.announced (env : Env) (id : UInt64) (path : FilePath) : Nat :=
  env.events.count (.fileCompleted id path)

theorem Env.announced_apply {env : Env} {id : UInt64} {path : FilePath}
    (h : e ≠ .notify (.fileCompleted id path)) :
    (env.apply e).announced id path = env.announced id path := by
  cases e with
  | notify event =>
      have hne : event ≠ .fileCompleted id path := fun heq => h (by rw [heq])
      simp [announced, apply, hne]
  | _ => rfl

/-- Since it began, what is announced of a file and what is owed are together one if its bitmap has
    become complete, and none otherwise. -/
structure Session.Announcing (began : Files) (s : Session) : Prop where
  hands : s.Hands
  wf : s.env.files.Wf
  known : ∀ id path, .fileCompleted id path ∈ s.env.events →
    ∃ st, s.env.files.lookup id = some st ∧ st.sink.path = path
  kept : ∀ id st₀, began.lookup id = some st₀ → ∃ st, s.env.files.lookup id = some st ∧
    st₀.SameFile st ∧ (st₀.bitmap.isComplete = true → st.bitmap.isComplete = true) ∧
    s.env.announced id st.sink.path + (s.workers.map (Worker.owes id)).sum
      = (st.bitmap.isComplete && !st₀.bitmap.isComplete).toNat

/-- A step that announces nothing and completes no bitmap. -/
theorem Session.Announcing.aside {began : Files} (h : s.Announcing began) (hhands : s'.Hands)
    (hset : ∀ id i, e ≠ .setBit id i) (htell : ∀ id path, e ≠ .notify (.fileCompleted id path))
    (henv : s'.env = s.env.apply e)
    (hsum : ∀ id, (s'.workers.map (Worker.owes id)).sum = (s.workers.map (Worker.owes id)).sum) :
    s'.Announcing began := by
  refine ⟨hhands, by rw [henv]; exact h.wf.apply e, fun id path hmem => ?_, fun id st₀ hst₀ => ?_⟩
  · have hold : .fileCompleted id path ∈ s.env.events := by
      have hpos : 0 < s'.env.announced id path := List.count_pos_iff.2 hmem
      rw [henv, Env.announced_apply (htell id path)] at hpos
      exact List.count_pos_iff.1 hpos
    obtain ⟨st, hst, hpath⟩ := h.known id path hold
    rw [henv]
    exact ⟨_, Env.lookup_apply_of hst, by rw [(e.sameFile_onFile id st).sink]; exact hpath⟩
  · obtain ⟨st, hst, hsame, hkept, hcount⟩ := h.kept id st₀ hst₀
    have hfile := e.sameFile_onFile id st
    rw [henv, hsum]
    refine ⟨_, Env.lookup_apply_of hst, hsame.trans hfile, ?_, ?_⟩
    · rw [Effect.bitmap_onFile_of_ne id st (hset id)]
      exact hkept
    · rw [hfile.sink, Env.announced_apply (htell id _), Effect.bitmap_onFile_of_ne id st (hset id)]
      exact hcount

/-- **Every step keeps the account**, when each missing chunk comes once. -/
theorem Session.Announcing.step {began : Files} (h : s.Announcing began) (hone : s.Once p a)
    (hstep : s.step p a = some s') : s'.Announcing began := by
  obtain ⟨e, heff, -⟩ := Session.step_moves hstep
  have hhands := h.hands.step h.wf hone hstep (Session.stepEffect_tallies heff)
  cases Session.stepEffect_announces heff with
  | elsewhere hset htell henv hsum hsame => exact h.aside hhands hset htell henv hsum
  | @worker i w w' hw hannounces heq =>
      subst heq
      have hsums := fun id => List.sum_map_set hw w' (Worker.owes id)
      cases hannounces with
      | keeps hset htell howes hsame =>
          refine h.aside hhands hset htell rfl fun id => ?_
          have hset := hsums id
          rw [howes id] at hset
          exact Nat.add_right_cancel hset
      | @marks c st b hcur hcur' hhand hst hset hpc hpc' =>
          have hclear := h.hands.missing i w _ _ st hw hhand hst
          have hincomplete := ChunkBitmap.isComplete_eq_false (h.wf _ st hst) hset hclear
          refine ⟨hhands, h.wf.apply _, fun id path hmem => ?_, fun id st₀ hst₀ => ?_⟩
          · obtain ⟨t, ht, hpath⟩ := h.known id path hmem
            exact ⟨_, Env.lookup_apply_of ht,
              by rw [(Effect.sameFile_onFile _ id t).sink]; exact hpath⟩
          · obtain ⟨t, ht, hsame, hkept, hcount⟩ := h.kept id st₀ hst₀
            have hfile := Effect.sameFile_onFile (.setBit c.fileId c.chunkIndex) id t
            refine ⟨_, Env.lookup_apply_of ht, hsame.trans hfile,
              fun hc => h.wf.isComplete_onFile _ ht (hkept hc), ?_⟩
            rw [hfile.sink, Env.announced_apply (fun heq => by cases heq)]
            have hset' := hsums id
            rw [Worker.owes_of_silent hpc] at hset'
            by_cases hid : c.fileId = id
            · subst hid
              obtain rfl := Option.some.inj (hst.symm.trans ht)
              -- the file was incomplete, so nothing was announced or owed
              have hbegan : st₀.bitmap.isComplete = false := by
                rw [Bool.eq_false_iff]
                intro hc
                rw [hkept hc] at hincomplete
                cases hincomplete
              rw [hincomplete, Bool.false_and, Bool.toNat_false] at hcount
              rw [Worker.owes_self hcur', hpc'] at hset'
              simp only [Effect.onFile, if_true, hset, hbegan, Bool.not_false, Bool.and_true]
              omega
            · rw [Worker.owes_of_ne hcur' hid] at hset'
              have hsamefile : (Effect.setBit c.fileId c.chunkIndex).onFile id t = t :=
                Effect.onFile_of_target_ne t fun heq => hid (Option.some.inj heq)
              rw [hsamefile]
              simp only
              omega
      | @tells c st hcur hcur' hst hpc hpc' =>
          refine ⟨hhands, h.wf.apply _, fun id path hmem => ?_, fun id st₀ hst₀ => ?_⟩
          · rcases List.mem_append.1 hmem with hold | hnew
            · obtain ⟨t, ht, hpath⟩ := h.known id path hold
              exact ⟨_, Env.lookup_apply_of ht, hpath⟩
            · cases List.mem_singleton.1 hnew
              exact ⟨_, Env.lookup_apply_of hst, rfl⟩
          · obtain ⟨t, ht, hsame, hkept, hcount⟩ := h.kept id st₀ hst₀
            refine ⟨_, Env.lookup_apply_of ht, hsame, hkept, ?_⟩
            have hset' := hsums id
            rw [Worker.owes_of_silent hpc'] at hset'
            have hfile : (Effect.notify (.fileCompleted c.fileId st.sink.path)).onFile id t = t := rfl
            rw [hfile]
            by_cases hid : c.fileId = id
            · subst hid
              obtain rfl := Option.some.inj (hst.symm.trans ht)
              rw [Worker.owes_self hcur, hpc] at hset'
              have hadd : (s.env.apply (.notify (.fileCompleted c.fileId st.sink.path))).announced
                  c.fileId st.sink.path = s.env.announced c.fileId st.sink.path + 1 := by
                simp [Env.announced, Env.apply]
              rw [hadd]
              simp only [Bool.toNat_true] at hset'
              simp only
              omega
            · rw [Worker.owes_of_ne hcur hid] at hset'
              have hother : Effect.notify (.fileCompleted c.fileId st.sink.path)
                  ≠ .notify (.fileCompleted id t.sink.path) := by
                rw [Ne, Effect.notify.injEq, ProgressEvent.fileCompleted.injEq]
                exact fun heq => hid heq.1
              rw [Env.announced_apply hother]
              simp only
              omega

end

/-! ## Every entry once -/

section

variable {p : Params} {config : Config} {outputDir : FilePath} {chunkSize : UInt32}
  {disk : FileSystem} {entries : List (FileEntry × EntryIo)} {st : OfferState} {streamCount : UInt32}
  {as : List SessionAct} {s : Session}

theorem Session.announcing_of_runs (hwf : st.files.Wf)
    (hone : Run.Meets (Session.step p) (Session.Once p) (Session.start st streamCount) as)
    (hrun : (Session.start st streamCount).runs p as = some s) : s.Announcing st.files := by
  refine Run.invariant_of (I := Session.Announcing st.files)
    (fun _ _ _ hI hC hstep => hI.step hC hstep) ⟨⟨?_, ?_⟩, hwf, ?_, ?_⟩ hone hrun
  · exact fun i w id j fs hw => by simp [Session.start] at hw
  · exact fun i j w v x hw => by simp [Session.start] at hw
  · exact fun id path hmem => absurd hmem List.not_mem_nil
  · intro id fs hfs
    refine ⟨fs, hfs, FileState.SameFile.refl fs, fun h => h, ?_⟩
    cases hc : fs.bitmap.isComplete <;> rfl

/-- What is announced of a file over a run that returns `Ok`. -/
theorem Session.Announcing.announced_eq {n : UInt64} (h : s.Announcing st.files) (hswept : s.Swept)
    (hret : s.main = .returned (.ok n)) {id : UInt64} {fs : FileState}
    (hfs : st.files.lookup id = some fs) :
    s.env.announced id fs.sink.path = (!fs.bitmap.isComplete).toNat := by
  obtain ⟨fs', hfs', hsame, -, hcount⟩ := h.kept id fs hfs
  have hunswept : s.main.unswept = some [] := by
    rw [hret]
    rfl
  have hcomplete : fs'.bitmap.isComplete = true :=
    (hswept.landed [] id fs' hunswept hfs' List.not_mem_nil).1
  have hnone : (s.workers.map (Worker.owes id)).sum = 0 := by
    rw [List.sum_eq_zero_iff_forall_eq_nat]
    intro k hk
    obtain ⟨w, hw, rfl⟩ := List.mem_map.1 hk
    refine Worker.owes_of_silent ?_ id
    rw [hswept.ended [] hunswept w hw]
    rfl
  rw [hnone, hcomplete, Bool.true_and, hsame.sink] at hcount
  exact hcount

/-- **When every entry is announced once.** In a run over an accepted offer that returns `Ok`, each
    missing chunk coming once, every entry is announced exactly once if and only if no two entries
    share a file id and no file was complete when the session began; and no step announces a file that
    is not complete. -/
theorem entries_announced_once_iff
    (hoffer : offerLoop p.blake3 config outputDir chunkSize (.init disk) entries = .ok st)
    (hone : Run.Meets (Session.step p) (Session.Once p) (Session.start st streamCount) as)
    (hrun : (Session.start st streamCount).runs p as = some s) {n : UInt64}
    (hret : s.main = .returned (.ok n)) :
    ((∀ x ∈ entries, ∃ path, x.1.dest outputDir = some path ∧
        s.env.announced x.1.fileId path = 1) ↔
      (entries.map fun x => x.1.fileId).Nodup ∧
        ∀ id fs, st.files.lookup id = some fs → fs.bitmap.isComplete = false) ∧
    Run.Meets (Session.step p) (Session.AnnouncesComplete p) (Session.start st streamCount) as := by
  have hacc := accepted_offerLoop hoffer
  have hwf : st.files.Wf := fun id fs hfs => hacc.wf hfs
  have hannouncing := Session.announcing_of_runs hwf hone hrun
  have hswept := Session.swept_of_runs hrun
  have htold : ∀ {id fs}, st.files.lookup id = some fs →
      s.env.announced id fs.sink.path = (!fs.bitmap.isComplete).toNat :=
    fun hfs => hannouncing.announced_eq hswept hret hfs
  refine ⟨⟨fun hall => ?_, fun ⟨hnodup, hincomplete⟩ x hx => ?_⟩, ?_⟩
  · -- a file that is announced at the destination of an entry is the entry's own
    have hown : ∀ x ∈ entries, ∃ fs, st.files.lookup x.1.fileId = some fs ∧
        fs.Serves p.blake3 outputDir chunkSize x.1 ∧ x.1.dest outputDir = some fs.sink.path := by
      intro x hx
      obtain ⟨path, hdest, hcount⟩ := hall x hx
      have hmem : .fileCompleted x.1.fileId path ∈ s.env.events := by
        rw [← List.count_pos_iff]
        exact Nat.lt_of_lt_of_eq Nat.one_pos hcount.symm
      obtain ⟨fs', hfs', rfl⟩ := hannouncing.known _ _ hmem
      obtain ⟨fs, hfs, hsame⟩ := Session.lookup_of_runs hrun hfs'
      obtain ⟨y, hy, hid, hserves⟩ := hacc.made _ _ hfs
      rw [hsame.sink] at hdest
      obtain rfl := hacc.eq_of_dest_eq hx hy (hdest.trans hserves.dest_eq.symm)
        (Option.isSome_iff_exists.2 ⟨_, hdest⟩)
      exact ⟨fs, hfs, hserves, hdest⟩
    refine ⟨hacc.covered_iff.1 fun x hx => ?_, fun id fs hfs => ?_⟩
    · obtain ⟨fs, hfs, hserves, -⟩ := hown x hx
      exact ⟨_, fs, hfs, hserves⟩
    · obtain ⟨x, hx, rfl, -⟩ := hacc.made id fs hfs
      obtain ⟨path, hdest, hcount⟩ := hall x hx
      obtain ⟨fs', hfs', -, hdest'⟩ := hown x hx
      obtain rfl := Option.some.inj (hfs.symm.trans hfs')
      obtain rfl := Option.some.inj (hdest'.symm.trans hdest)
      rw [htold hfs] at hcount
      cases hc : fs.bitmap.isComplete with
      | false => rfl
      | true =>
          rw [hc] at hcount
          cases hcount
  · obtain ⟨fs, hfs, hserves⟩ := hacc.kept hnodup x hx
    refine ⟨fs.sink.path, hserves.dest_eq, ?_⟩
    rw [htold hfs, hincomplete _ _ hfs]
    rfl
  · refine Run.Meets.of_invariant (I := Session.Vouches) (fun s a s' hs hstep => ?_)
      (fun s a hs => hs.announcesComplete a) ⟨hwf, fun w hw => absurd hw List.not_mem_nil⟩ as
    obtain ⟨e, heff, -⟩ := Session.step_moves hstep
    exact hs.step (Session.stepEffect_announces heff)

end

/-! ### An empty file -/

/-- Whether each missing chunk comes once in this step. -/
def Session.onceCheck (p : Params) (s : Session) (a : SessionAct) : Bool :=
  (s.step p a).all fun s' => (s.workers.zip s'.workers).all fun x =>
    x.1.current.isSome || x.2.current.all fun c =>
      (s.env.files.lookup c.fileId).all (fun st => !st.bitmap.has c.chunkIndex) &&
        s.workers.all fun v => decide (v.inHand ≠ some (c.fileId, c.chunkIndex))

theorem Session.once_of_onceCheck {p : Params} {s : Session} {a : SessionAct}
    (h : s.onceCheck p a = true) : s.Once p a := by
  intro s' hstep i w w' c hw hw' hnone hcur
  rw [onceCheck, hstep, Option.all_some, List.all_eq_true] at h
  have hpair := h (w, w') (List.mem_of_getElem? (by rw [List.getElem?_zip_eq_some]; exact ⟨hw, hw'⟩))
  rw [hnone, hcur, Option.isSome_none, Bool.false_or, Option.all_some, Bool.and_eq_true,
    List.all_eq_true] at hpair
  refine ⟨fun st hst => ?_, fun v hv => of_decide_eq_true (hpair.2 v hv)⟩
  have hclear := hpair.1
  rw [hst, Option.all_some, Bool.not_eq_true'] at hclear
  exact hclear

/-- A run over an offer into an empty directory that returns `Ok`, each missing chunk coming once,
    found by evaluation. -/
theorem exists_finished (entries : List (FileEntry × EntryIo)) (as : List SessionAct)
    (check : OfferState → Session → Bool)
    (h : ((offerLoop uncheckpointed.blake3 plainConfig ["out"] 65536 (.init .empty)
        entries).toOption.any fun st =>
      ((Session.start st 1).runs uncheckpointed as).any fun s => s.main.returnedOk.isSome &&
        decide (Run.Meets (Session.step uncheckpointed)
          (fun s a => s.onceCheck uncheckpointed a = true) (Session.start st 1) as) && check st s)
        = true) :
    ∃ st s n, offerLoop uncheckpointed.blake3 plainConfig ["out"] 65536 (.init .empty) entries
        = .ok st ∧
      Run.Meets (Session.step uncheckpointed) (Session.Once uncheckpointed) (Session.start st 1) as ∧
      (Session.start st 1).runs uncheckpointed as = some s ∧ s.main = .returned (.ok n) ∧
      check st s = true := by
  obtain ⟨st, s, hoffer, hrun, hcheck⟩ := exists_run uncheckpointed entries 1 as _ h
  rw [Bool.and_eq_true, Bool.and_eq_true] at hcheck
  obtain ⟨n, hn⟩ := Option.isSome_iff_exists.1 hcheck.1.1
  exact ⟨st, s, n, hoffer,
    (of_decide_eq_true hcheck.1.2).mono fun _ _ hstep => Session.once_of_onceCheck hstep,
    hrun, MainPc.returnedOk_eq_some hn, hcheck.2⟩

/-- Two files that are not there yet are announced once each. -/
theorem entries_announced_once_iff_twoFile :
    ∃ (s₀ s : Session) (n : UInt64), s.main = .returned (.ok n) ∧
      (∀ x ∈ twoFileOffer, ∃ path, x.1.dest ["out"] = some path ∧
        s.env.announced x.1.fileId path = 1) ∧
      Run.Meets (Session.step uncheckpointed) (Session.AnnouncesComplete uncheckpointed) s₀
        (receiveTwoFiles [.worker 0 .next]) := by
  obtain ⟨st, s, n, hoffer, hone, hrun, hret, hcheck⟩ :=
    exists_finished twoFileOffer (receiveTwoFiles [.worker 0 .next])
      (fun st _ => st.files.entries.all fun e => !e.2.bitmap.isComplete) (by decide +kernel)
  obtain ⟨hiff, hmeets⟩ := entries_announced_once_iff (p := uncheckpointed) hoffer hone hrun hret
  refine ⟨_, s, n, hret, hiff.2 ⟨by decide, fun id fs hfs => ?_⟩, hmeets⟩
  exact Bool.not_eq_true' _ ▸ check_of_lookup hcheck hfs

/-- A file `e` without a byte. -/
def emptyOffer : List (FileEntry × EntryIo) :=
  [({ fileId := 0, relativePath := "e", sizeBytes := 0,
      rootHash := (rootFromChunkHashes shortFileHash []).1, chunkHashes := [] }, allCallsSucceed)]

/-- The stream ends without a frame, and `run` goes over the map. -/
def emptyRun : List SessionAct :=
  [.accept, .main .next, .close 0 .eof, .worker 0 .next, .join [0]] ++
    List.replicate 6 (.main .next)

/-- An empty file is received and not announced. -/
theorem empty_file_not_announced :
    ¬ ∀ (p : Params) (config : Config) (outputDir : FilePath) (chunkSize : UInt32)
      (disk : FileSystem) (entries : List (FileEntry × EntryIo)) (st : OfferState)
      (streamCount : UInt32) (as : List SessionAct) (s : Session) (n : UInt64),
      offerLoop p.blake3 config outputDir chunkSize (.init disk) entries = .ok st →
      (entries.map fun x => x.1.fileId).Nodup →
      Run.Meets (Session.step p) (Session.Once p) (Session.start st streamCount) as →
      (Session.start st streamCount).runs p as = some s → s.main = .returned (.ok n) →
      ∀ x ∈ entries, ∃ path, x.1.dest outputDir = some path ∧
        s.env.announced x.1.fileId path = 1 := by
  intro hclaim
  obtain ⟨st, s, n, hoffer, hone, hrun, hret, hcheck⟩ :=
    exists_finished emptyOffer emptyRun (fun _ s => decide (s.env.events = [])) (by decide +kernel)
  obtain ⟨path, -, hcount⟩ := hclaim uncheckpointed _ _ _ _ _ st 1 _ s n hoffer (by decide) hone hrun
    hret _ List.mem_cons_self
  rw [Env.announced, of_decide_eq_true hcheck] at hcount
  cases hcount

end AetherLink
