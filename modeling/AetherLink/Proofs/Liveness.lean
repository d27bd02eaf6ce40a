import AetherLink.Proofs.Halting

set_option autoImplicit false

/-! # An honest transfer gets done

While no call fails and no stream is cut, some step is enabled until both ends have returned `Ok`
(`Transfer.Sharing.completed_of_stuck`). Every stream can be followed from its sending worker to its
receiving one: what is not written yet can be written, what is written can arrive, and a worker whose
stream has ended goes on to its own end. With every step leaving less to do the transfer can neither
go on for ever nor come to a stop anywhere else.

A checkpoint is a call to the disk that depends on what is there: it needs a directory to keep the
record in, under names that are not themselves directories (`Session.Recordable`). -/

namespace AetherLink

open Bytes Storage

/-! ## Room for the records -/

/-- The record of every file is kept in a directory, under names that are no directories. -/
def Session.Recordable (s : Session) : Prop :=
  ∀ id st, s.env.files.lookup id = some st →
    s.env.disk.isDir st.sink.path.dropLast = true ∧
      s.env.disk.node (statePath st.sink.path) ≠ some .dir ∧
      s.env.disk.node (tmpPath st.sink.path) ≠ some .dir

theorem Session.Recordable.step {p : Params} {s s' : Session} {e : Effect} (h : s.Recordable)
    (hmove : SessionMove p s s' e) : s'.Recordable := by
  intro id st hst
  rw [hmove.env_eq] at hst ⊢
  obtain ⟨st₀, hst₀, -, hsame⟩ := Env.lookup_apply hst
  obtain ⟨hdir, hstate, htmp⟩ := h id st₀ hst₀
  rw [hsame.sink]
  refine ⟨?_, fun heq => hstate ((e.dir_onDisk _ _).1 heq), fun heq => htmp ((e.dir_onDisk _ _).1 heq)⟩
  simp only [Disk.isDir, Bool.or_eq_true, decide_eq_true_eq] at hdir ⊢
  exact hdir.imp_right (e.dir_onDisk _ _).2

/-- **The disk refuses no checkpoint.** -/
theorem Session.Recordable.not_refused {blake3 : Blake3} {s : Session} (h : s.Recordable)
    (htidy : s.Tidy blake3) {i : Nat} {w : Worker} (hw : s.workers[i]? = some w) :
    ¬ w.Refused s.env := by
  rintro ⟨c, st, snapshot, hcur, hst, hwhere⟩
  obtain ⟨hdir, hstate, htmp⟩ := h _ st hst
  rcases hwhere with ⟨hpc, hcreate⟩ | ⟨tmp, hpc, hrename⟩
  · have hsome := Disk.isSome_create (p := tmpPath st.sink.path)
      (by rwa [tmpPath, withExtension, dropLast_withFileName, statePath, dropLast_withFileName]) htmp
    rw [hcreate] at hsome
    cases hsome
  · have hcp : s.checkpointOf (some i) = some (c.fileId, .renameTmp snapshot tmp) := by
      rw [checkpointOf_self hw]
      simp only [Worker.checkpoint?, hpc, hcur]
    have hsome := Disk.isSome_rename (htidy.writing _ _ _ st hcp hst).1 hstate
    rw [hrename] at hsome
    cases hsome

/-! ## Places a transfer can go on from -/

/-- A sending worker's chunk is there, and so is the part it is about to write; at the end of its
    stream it has shut it down. -/
def SendWorker.Apt (frameSize : Nat) (offered : List (SourceFile × FileEntry))
    (w : SendWorker) : Prop :=
  match w.pc with
  | .header item _ => 0 < frameSize ∧ ∃ x, chunkOf offered item = .ok x
  | .part item n => 0 < frameSize ∧ ∃ x, chunkOf offered item = .ok x ∧ n * frameSize < x.2.length
  | .counting item => ∃ x, chunkOf offered item = .ok x
  | .draining => w.stream.shut = true
  | .ended (.ok ()) => w.stream.shut = true
  | _ => True

/-- The control messages `run` has written past `Accept`, if it has not failed. -/
def MainPc.told : MainPc → List Body
  | .returned (.ok m) => [.complete m]
  | _ => []

/-- `run` on the sending side awaits nothing but the receiver's last word, and if it has returned it
    has had it. -/
def SenderPc.Heard (read : Nat) : SenderPc → Prop
  | .returned r => ∃ n, r = .ok n
  | _ => read = 1

/-- What else holds of an honest transfer wherever it is. -/
structure Transfer.Poised (c : Parties) (t : Transfer) (s : Session) : Prop where
  apt : ∀ sw ∈ t.sender.workers, sw.Apt c.senderConfig.frameSize.toNat t.sender.offered
  snug : ∀ w ∈ s.workers, w.Snug ∧ w.Within
  hashed : s.env.files.Hashed
  recordable : s.Recordable
  sent : s.env.sent = s.main.told
  heard : t.sender.main.Heard t.read

/-- A step of a sending worker leaves it apt, however its call goes. -/
theorem SendWorkerPc.step_apt {frameSize : UInt32} {s : Sender} {stream : Stream}
    {pc pc' : SendWorkerPc} {io : SendIo} {e : SendEffect}
    (hapt : SendWorker.Apt frameSize.toNat s.offered ⟨stream, pc⟩)
    (h : pc.step frameSize s io = some (pc', e)) :
    SendWorker.Apt frameSize.toNat s.offered ⟨e.onStream stream, pc'⟩ := by
  cases pc with
  | popping =>
      cases io with
      | fail k => cases h
      | next =>
          simp only [step] at h
          split at h
          · cases h
            trivial
          · split at h
            · cases h
              trivial
            · next x hx =>
                split at h
                · cases h
                  trivial
                · next hne =>
                    cases h
                    exact ⟨Nat.pos_of_ne_zero fun hzero => hne (UInt32.toNat_inj.1 hzero), x, hx⟩
  | header item n =>
      obtain ⟨hpos, ⟨offset, payload⟩, hchunk⟩ := hapt
      simp only [step, hchunk] at h
      by_cases hlt : n * frameSize.toNat < payload.length
      · rw [partOf_of_lt hlt] at h
        cases io with
        | next =>
            cases h
            exact ⟨hpos, _, hchunk, hlt⟩
        | fail k =>
            cases h
            trivial
      · rw [partOf_of_le (Nat.not_lt.1 hlt)] at h
        cases io with
        | next =>
            cases h
            exact ⟨_, hchunk⟩
        | fail k => cases h
  | part item n =>
      obtain ⟨hpos, ⟨offset, payload⟩, hchunk, hlt⟩ := hapt
      simp only [step, hchunk, partOf_of_lt hlt] at h
      cases io with
      | next =>
          cases h
          exact ⟨hpos, _, hchunk⟩
      | fail k =>
          cases h
          trivial
  | counting item =>
      obtain ⟨⟨offset, payload⟩, hchunk⟩ := hapt
      cases io with
      | fail k => cases h
      | next =>
          simp only [step, hchunk] at h
          cases h
          trivial
  | reporting done =>
      cases io with
      | fail k => cases h
      | next =>
          cases h
          trivial
  | closing =>
      cases io with
      | next =>
          cases h
          exact (rfl : true = true)
      | fail k =>
          cases h
          trivial
  | draining =>
      cases h
      exact hapt
  | ended r => cases io <;> cases h

/-- **An apt worker can take a step** until it has ended. -/
theorem SendWorkerPc.exists_step {frameSize : UInt32} {s : Sender} {stream : Stream}
    {pc : SendWorkerPc} (hapt : SendWorker.Apt frameSize.toNat s.offered ⟨stream, pc⟩)
    (hrun : ∀ r, pc ≠ .ended r) : ∃ x, pc.step frameSize s .next = some x := by
  cases pc with
  | popping =>
      simp only [step]
      split
      · exact ⟨_, rfl⟩
      · split
        · exact ⟨_, rfl⟩
        · split <;> exact ⟨_, rfl⟩
  | header item n =>
      obtain ⟨-, ⟨offset, payload⟩, hchunk⟩ := hapt
      by_cases hlt : n * frameSize.toNat < payload.length
      · simp only [step, hchunk, partOf_of_lt hlt]
        exact ⟨_, rfl⟩
      · simp only [step, hchunk, partOf_of_le (Nat.not_lt.1 hlt)]
        exact ⟨_, rfl⟩
  | part item n =>
      obtain ⟨-, ⟨offset, payload⟩, hchunk, hlt⟩ := hapt
      simp only [step, hchunk, partOf_of_lt hlt]
      exact ⟨_, rfl⟩
  | counting item =>
      obtain ⟨⟨offset, payload⟩, hchunk⟩ := hapt
      simp only [step, hchunk]
      exact ⟨_, rfl⟩
  | reporting done => exact ⟨_, rfl⟩
  | closing => exact ⟨_, rfl⟩
  | draining => exact ⟨_, rfl⟩
  | ended r => exact absurd rfl (hrun r)

/-! ## Every step keeps a transfer going -/

/-- What `run` has told the sender grows with what it does. -/
theorem MainMove.told_apply {p : Params} {env : Env} {pc pc' : MainPc} {e : Effect}
    (h : MainMove p env pc pc' e) (hpc : pc.Completing) (hsent : env.sent = pc.told) :
    (env.apply e).sent = pc'.told := by
  have hnone : (∀ b, e ≠ .send b) → pc'.told = pc.told → (env.apply e).sent = pc'.told :=
    fun he htold => by rw [Env.sent_apply he, hsent, htold]
  cases h with
  | failed error | saves error id todo => exact hpc.elim
  | saving error todo hs hmove | saved error todo hs hmove => exact hpc.elim
  | shelving hs hmove | shelved hs hmove | aborts hs he => exact hpc.elim
  | completes =>
      show env.sent ++ [.complete env.counter] = _
      rw [hsent]
      rfl
  | drops todo hs he => exact hnone (by rcases he with rfl | rfl <;> exact fun _ => nofun) rfl
  | dropsTmp todo hs he => exact hnone (by rcases he with rfl | rfl <;> exact fun _ => nofun) rfl
  | _ => exact hnone (fun _ => nofun) rfl

namespace Transfer

variable {c : Parties} {offered : List (SourceFile × FileEntry)} {bitmaps : List ChunkBitmap}
  {s₀ s s' : Session} {t t' : Transfer} {lanes : List Lane}

/-- A step of the session keeps what is said of it. -/
theorem Poised.of_session (h : t.Poised c s) (accept : ManifestAccept) {totalBytes : UInt64}
    {act : SessionAct} (hmain : s.main.Completing) (hmain' : s'.main.Completing)
    (hstep : s.step (c.params totalBytes) act = some s') :
    ({ t with receiver := .running accept totalBytes s' } : Transfer).Poised c s' := by
  obtain ⟨e, heff, hmove⟩ := Session.step_moves hstep
  refine ⟨h.apt, ?_, ?_, h.recordable.step hmove, ?_, h.heard⟩
  · exact hmove.forall_workers
      (fun _ inbox closed ⟨hsnug, hwithin⟩ => ⟨hsnug.arrives inbox closed, hwithin⟩)
      (fun _ _ _ hmove ⟨hsnug, hwithin⟩ => ⟨hsnug.step hmove, hwithin.step hmove⟩)
      ⟨Worker.Snug.fresh, fun _ _ _ hpc => by cases hpc⟩ h.snug
  · rw [hmove.env_eq]
    exact h.hashed.apply e
  · have hsent := h.sent
    cases hmove with
    | arrives hw hopen inbox closed => exact hsent
    | worker hw hmove => exact (Env.sent_apply fun b => hmove.not_send b).trans hsent
    | accepts hspawning =>
        rw [hspawning] at hsent
        exact hsent
    | refuses hspawning error => exact hmain'.elim
    | joins hjoining hended horder hnext =>
        rw [hjoining] at hsent
        rcases hnext with ⟨error, -, rfl⟩ | ⟨-, rfl⟩ <;> exact hsent
    | main hmove => exact hmove.told_apply hmain hsent

/-- A turn of the sender's `run`, which may have read the receiver's last word. -/
theorem Poised.of_sender (h : t.Poised c s) (hsharing : t.Sharing c offered bitmaps s₀ s lanes)
    {act : Sender.Act} {sender : Sender}
    (hstep : t.sender.mainStep c.blake3 c.senderConfig c.files act = some sender) {read : Nat}
    (hact : (read = t.read ∧ (∀ body, act ≠ .reads body) ∧ ∀ error, act ≠ .fail error) ∨
      ∃ m, act = .reads (.complete m)) :
    ({ t with sender := sender, read := read } : Transfer).Poised c s := by
  have hserving := hsharing.serving
  have hheard := h.heard
  have hfresh : ∀ sw ∈ t.sender.workers ++ [SendWorker.fresh],
      sw.Apt c.senderConfig.frameSize.toNat t.sender.offered := by
    intro sw hsw
    rcases List.mem_append.1 hsw with hold | hnew
    · exact h.apt sw hold
    · obtain rfl := List.mem_singleton.1 hnew
      trivial
  -- a turn that reads nothing
  have hturn : ∀ {act' : Sender.Act}, act = act' → (∀ body, act' ≠ .reads body) → read = t.read := by
    rintro act' rfl hne
    rcases hact with ⟨hread, -, -⟩ | ⟨m, rfl⟩
    · exact hread
    · exact absurd rfl (hne _)
  cases Sender.mainStep_moves hstep with
  | opened hmain hlen hoffered =>
      rw [hmain] at hserving
      exact hserving.elim
  | notOpened hmain | greets hmain | offers hmain | refused hmain =>
      rw [hmain] at hserving
      exact hserving.elim
  | accepted hmain hqueue =>
      rw [hmain] at hserving
      exact hserving.elim
  | spawns hmain =>
      rw [hmain] at hheard
      exact ⟨hfresh, h.snug, h.hashed, h.recordable, h.sent, (hturn rfl nofun).trans hheard⟩
  | spawned hmain =>
      rw [hmain] at hheard
      exact ⟨h.apt, h.snug, h.hashed, h.recordable, h.sent, (hturn rfl nofun).trans hheard⟩
  | joins hmain hw hpc =>
      rw [hmain] at hheard
      exact ⟨h.apt, h.snug, h.hashed, h.recordable, h.sent, (hturn rfl nofun).trans hheard⟩
  | joined hmain hw =>
      rw [hmain] at hheard
      exact ⟨h.apt, h.snug, h.hashed, h.recordable, h.sent, (hturn rfl nofun).trans hheard⟩
  | workerFailed hmain hw hpc =>
      obtain ⟨l, -, hlink⟩ := hsharing.lane hw
      exact absurd hpc (hlink.sent_ok _)
  | confirms hmain =>
      rcases hact with ⟨-, hne, -⟩ | ⟨m, heq⟩
      · exact absurd rfl (hne _)
      · cases heq
        exact ⟨h.apt, h.snug, h.hashed, h.recordable, h.sent, _, rfl⟩
  | fails hmain =>
      rcases hact with ⟨-, -, hne⟩ | ⟨m, heq⟩
      · exact absurd rfl (hne _)
      · cases heq

/-- **What the sender reads past the answer is the receiver's `Complete`.** -/
theorem Poised.reads_complete (h : t.Poised c s) (hsharing : t.Sharing c offered bitmaps s₀ s lanes)
    {body : Body} {sender : Sender} (hbody : t.receiver.messages[t.read]? = some body)
    (hstep : t.sender.mainStep c.blake3 c.senderConfig c.files (.reads body) = some sender) :
    ∃ m, body = .complete m := by
  have hserving := hsharing.serving
  have hheard := h.heard
  obtain ⟨accept, totalBytes, hrunning⟩ := hsharing.receiver
  have hread : t.read = 1 := by
    cases Sender.mainStep_moves hstep with
    | refused hmain | accepted hmain hqueue =>
        rw [hmain] at hserving
        exact hserving.elim
    | confirms hmain =>
        rw [hmain] at hheard
        exact hheard
  rw [hrunning, hread, Receiver.messages, List.getElem?_cons_succ, h.sent] at hbody
  have hmem := List.mem_of_getElem? hbody
  unfold MainPc.told at hmem
  split at hmem
  · exact ⟨_, List.mem_singleton.1 hmem⟩
  · cases hmem

/-- **Every honest step keeps a transfer poised.** -/
theorem Poised.step (h : t.Poised c s) (hsharing : t.Sharing c offered bitmaps s₀ s lanes)
    {lanes' : List Lane} (hsharing' : t'.Sharing c offered bitmaps s₀ s' lanes') {a : TransferAct}
    (ha : a.honest = true) (hmove : Transfer.Move c t a t') : t'.Poised c s' := by
  obtain ⟨accept₀, totalBytes₀, hrunning⟩ := hsharing.receiver
  obtain ⟨accept₁, totalBytes₁, hrunning'⟩ := hsharing'.receiver
  have hmain := hsharing.receives.main
  have hmain' := hsharing'.receives.main
  cases hmove with
  | @sender act sender hact hstep =>
      cases hrunning.symm.trans hrunning'
      refine h.of_sender hsharing hstep (Or.inl ⟨rfl, hact, fun error heq => ?_⟩)
      rw [heq] at ha
      cases ha
  | reads hbody hstep =>
      cases hrunning.symm.trans hrunning'
      obtain ⟨m, rfl⟩ := h.reads_complete hsharing hbody hstep
      exact h.of_sender hsharing hstep (Or.inr ⟨m, rfl⟩)
  | @sendWorker i io sender hstep =>
      cases hrunning.symm.trans hrunning'
      cases io with
      | fail n => cases ha
      | next =>
          obtain ⟨sw, pc, e, hsw, hpc, rfl⟩ := Sender.workerStep_ok hstep
          refine ⟨fun sw' hsw' => ?_, h.snug, h.hashed, h.recordable, h.sent, h.heard⟩
          rcases List.mem_or_eq_of_mem_set hsw' with hold | rfl
          · exact h.apt sw' hold
          · exact SendWorkerPc.step_apt (s := t.sender) (h.apt sw (List.mem_of_getElem? hsw)) hpc
  | hello told hreceiver hbody =>
      rw [hrunning] at hreceiver
      cases hreceiver
  | offer written hreceiver hbody hios =>
      rw [hrunning] at hreceiver
      cases hreceiver
  | lost error hreceiver => cases ha
  | session hreceiver hact htaken hstep =>
      rw [hrunning] at hreceiver
      cases hreceiver
      cases hrunning'
      exact h.of_session _ hmain hmain' hstep
  | @deliver i n sw accept totalBytes s₂ s₃ hsw hn hreceiver hstep =>
      rw [hrunning] at hreceiver
      cases hreceiver
      cases hrunning'
      have hpoised := h.of_session accept₀ hmain hmain' hstep
      refine ⟨fun sw' hsw' => ?_, hpoised.snug, hpoised.hashed, hpoised.recordable, hpoised.sent,
        h.heard⟩
      rcases List.mem_or_eq_of_mem_set hsw' with hold | rfl
      · exact h.apt sw' hold
      · exact h.apt sw (List.mem_of_getElem? hsw)
  | eof hsw hshut hall hreceiver hstep =>
      rw [hrunning] at hreceiver
      cases hreceiver
      cases hrunning'
      exact h.of_session _ hmain hmain' hstep
  | cut hreceiver hstep => cases ha

/-! ## Where no step is enabled -/

/-- An act of an honest transfer that gets it on. -/
def Working (a : TransferAct) : Prop :=
  a.honest = true ∧ a.busy = true

section Stuck

variable (h : t.Sharing c offered bitmaps s₀ s lanes) (hpoised : t.Poised c s)
  (hstuck : Run.Stuck (step c) Working t)
include h hpoised hstuck

omit h hpoised in
/-- `run` on the sending side cannot go on by itself. -/
theorem sender_stuck : t.sender.mainStep c.blake3 c.senderConfig c.files .next = none := by
  have hnone := hstuck (.sender .next) ⟨rfl, rfl⟩
  rwa [step, Option.map_eq_none_iff] at hnone
  · simp

omit hpoised in
/-- **Every stream is established**, on both sides. -/
theorem established : t.sender.workers.length = c.senderConfig.streamCount.toNat ∧
    s.workers.length = c.senderConfig.streamCount.toNat := by
  have hnext := sender_stuck hstuck
  have hstreams := h.streams
  have haccepted := h.receives.streams
  have hsender : t.sender.main.left = 0 := by
    cases hmain : t.sender.main with
    | spawning left =>
        rw [Sender.mainStep, hmain] at hnext
        cases left <;> cases hnext
    | _ => rfl
  have hreceiver : s.main.left = 0 := by
    obtain ⟨accept, totalBytes, hrunning⟩ := h.receiver
    cases hmain : s.main with
    | spawning left =>
        cases left with
        | zero => rfl
        | succ left =>
            have htaken : t.taken < t.sender.workers.length := by
              rw [hmain, MainPc.left] at haccepted
              rw [taken, hrunning]
              show s.workers.length < _
              omega
            have hnone := hstuck (.session .accept) ⟨rfl, rfl⟩
            simp only [step, if_pos htaken, sessionStep, hrunning, Session.step,
              Session.stepEffect, hmain, Option.map_some] at hnone
            cases hnone
    | _ => rfl
  omega

/-- **The end of every stream has arrived.** -/
theorem closed_of_stuck {i : Nat} {w : Worker} (hw : s.workers[i]? = some w) :
    w.closed ≠ none := by
  intro hopen
  obtain ⟨accept, totalBytes, hrunning⟩ := h.receiver
  obtain ⟨l, sw, hl, hsw, hlink⟩ := h.lane_of_worker hw
  by_cases hall : sw.stream.delivered = sw.stream.written.length
  · cases hshut : sw.stream.shut with
    | true =>
        have hnone := hstuck (.eof i) ⟨rfl, rfl⟩
        simp only [step, hsw, hshut, hall, and_self, if_true, sessionStep, hrunning, Session.step,
          Session.stepEffect, hw, hopen, Option.isSome_none, Bool.false_eq_true, if_false,
          Option.map_some] at hnone
        cases hnone
    | false =>
        have hapt := hpoised.apt sw (List.mem_of_getElem? hsw)
        have hdraining : sw.pc ≠ .draining := by
          intro hpc
          rw [SendWorker.Apt, hpc, hshut] at hapt
          cases hapt
        obtain ⟨x, hx⟩ := SendWorkerPc.exists_step (s := t.sender) hapt (fun r hr => by
          cases r with
          | error error => exact hlink.sent_ok error hr
          | ok u =>
              rw [SendWorker.Apt, hr, hshut] at hapt
              cases hapt)
        have hnone := hstuck (.sendWorker i .next) ⟨rfl, rfl⟩
        simp only [step, hsw] at hnone
        split at hnone
        · next hpc _ => exact hdraining hpc
        · simp only [Sender.workerStep, hsw, hx, Option.map_some] at hnone
          cases hnone
  · have hnone := hstuck (.deliver i 1) ⟨rfl, rfl⟩
    have hlt : sw.stream.delivered + 1 ≤ sw.stream.written.length := by
      have := hlink.delivered_le
      omega
    simp only [step, hsw, hlt, if_true, sessionStep, hrunning, Session.step,
      Session.stepEffect, hw, hopen, Option.isSome_none, Bool.false_eq_true, if_false,
      Option.map_some] at hnone
    cases hnone

/-- **Every receiving worker has ended.** -/
theorem ended_of_stuck {w : Worker} (hw : w ∈ s.workers) : ∃ r, w.pc = .ended r := by
  by_contra hrun
  obtain ⟨accept, totalBytes, hrunning⟩ := h.receiver
  obtain ⟨i, hi⟩ := List.mem_iff_getElem?.1 hw
  have htidy := h.receives.tidy
  obtain ⟨hsnug, hwithin⟩ := hpoised.snug w hw
  rcases Worker.goes_on (p := c.params totalBytes) hsnug (htidy.fits w hw) hwithin hpoised.hashed
    (closed_of_stuck h hpoised hstuck hi) (not_exists.1 hrun)
    with ⟨io, x, hio, hx⟩ | hrefused
  · have hnone := hstuck (.session (.worker i io)) ⟨by cases io <;> trivial, rfl⟩
    simp only [step, sessionStep, hrunning, Session.step, Session.stepEffect, hi, hx,
      Option.map_some] at hnone
    cases hnone
  · exact hpoised.recordable.not_refused htidy hi hrefused

end Stuck

/-- Both ends have returned `Ok`, with everything delivered. -/
structure Completed (c : Parties) (offered : List (SourceFile × FileEntry))
    (bitmaps : List ChunkBitmap) (s₀ : Session) (t : Transfer) : Prop where
  sender : ∃ n, t.sender.main = .returned (.ok n)
  receiver : ∃ s carried m, t.Delivering c offered bitmaps s₀ s carried ∧
    t.Delivered c offered bitmaps s₀ s carried ∧ s.main = .returned (.ok m)

/-- **Where no step is enabled the transfer is completed.** -/
theorem Sharing.completed_of_stuck (h : t.Sharing c offered bitmaps s₀ s lanes)
    (hpoised : t.Poised c s) (hstuck : Run.Stuck (Transfer.step c) Working t)
    (hready : s₀.Ready c offered bitmaps) (hoffers : c.Offers offered)
    (hpos : 0 < c.senderConfig.frameSize.toNat)
    (hmax : c.senderConfig.frameSize.toNat ≤ MAX_FRAME_PAYLOAD)
    (hstreams : 0 < c.senderConfig.streamCount.toNat) : t.Completed c offered bitmaps s₀ := by
  obtain ⟨accept, totalBytes, hrunning⟩ := h.receiver
  obtain ⟨hsenders, hall⟩ := established h hstuck
  have hended : ∀ w ∈ s.workers, ∃ r, w.pc = .ended r := fun w hw =>
    ended_of_stuck h hpoised hstuck hw
  -- the receiver's `run` has returned
  have hreturned : ∃ m, s.main = .returned (.ok m) := by
    by_contra hrun
    obtain ⟨act, s', hact, hhonest, hstep, -, -⟩ := h.advances hready hoffers hstreams hall hended
      (not_exists.1 hrun) totalBytes
    have hsome := step_session hrunning hact hstep
    refine hstuck.not_some ⟨hhonest, ?_⟩ hsome
    rfl
  obtain ⟨m, hm⟩ := hreturned
  -- every sending worker has ended
  have hsent : ∀ (i : Nat) sw, t.sender.workers[i]? = some sw → sw.pc = .ended (.ok ()) := by
    intro i sw hsw
    have hi : i < s.workers.length := by
      have := (List.getElem?_eq_some_iff.1 hsw).1
      omega
    have hw := List.getElem?_eq_getElem hi
    obtain ⟨l, sw', -, hsw', hlink⟩ := h.lane_of_worker hw
    obtain rfl := Option.some.inj (hsw.symm.trans hsw')
    obtain ⟨r, hr⟩ := hended _ (List.mem_of_getElem? hw)
    rcases hlink.shut (hlink.ended r hr) with hpc | hpc
    · have hreleased : t.released i = true := by
        rw [released, hrunning]
        simp only [hw, hr, WorkerPc.result?, Option.isSome_some]
      have hnone := hstuck (.sendWorker i .next) ⟨rfl, rfl⟩
      simp only [Transfer.step, hsw, hpc, hreleased, if_true, Sender.workerStep, SendWorkerPc.step,
        Option.map_some] at hnone
      cases hnone
    · exact hpc
  refine ⟨?_, s, _, m, h.delivering, h.delivered hready hoffers hstreams hpos hmax hall hended, hm⟩
  -- so has its `run`
  have hserving := h.serving
  have hheard := hpoised.heard
  have hnext := sender_stuck hstuck
  cases hmain : t.sender.main with
  | returned r =>
      rw [hmain] at hheard
      obtain ⟨n, rfl⟩ := hheard
      exact ⟨n, rfl⟩
  | spawning left =>
      rw [Sender.mainStep, hmain] at hnext
      cases left <;> cases hnext
  | joining i =>
      rw [Sender.mainStep, hmain] at hnext
      cases hw : t.sender.workers[i]? with
      | none =>
          simp only [hw] at hnext
          cases hnext
      | some sw =>
          simp only [hw, hsent i sw hw] at hnext
          cases hnext
  | confirming =>
      rw [hmain] at hheard
      have hbody : t.receiver.messages[t.read]? = some (.complete m) := by
        rw [show t.read = 1 from hheard, hrunning, Receiver.messages, List.getElem?_cons_succ,
          hpoised.sent, hm]
        rfl
      have hnone := hstuck .reads ⟨rfl, rfl⟩
      simp only [Transfer.step, hbody, Sender.mainStep, hmain, Option.map_some] at hnone
      cases hnone
  | _ =>
      rw [hmain] at hserving
      exact hserving.elim

/-! ## From the answer on -/

/-- The first step leaves the transfer poised. -/
theorem Agreed.poised (h : t.Agreed c offered bitmaps s)
    (hstreams : 0 < c.senderConfig.streamCount.toNat)
    (hsent : s.env.sent = []) (hroom : s.Recordable) {a : TransferAct} (ha : a.honest = true)
    (hmove : Transfer.Move c t a t') : t'.Poised c s := by
  have hsharing := h.step hstreams ha hmove
  have hserving := hsharing.serving
  have hidle : t'.sender.workers = [] :=
    List.eq_nil_of_length_eq_zero hsharing.length_eq.symm
  have hhashed : s.env.files.Hashed := by
    intro id st hst
    obtain ⟨x, hx, rfl⟩ := h.ready.only id st hst
    obtain ⟨i, hi⟩ := List.mem_iff_getElem?.1 hx
    obtain ⟨b, st', -, hst', hserves, -⟩ := h.ready.file h.offers hi
    rw [h.offers.fileId_eq hi] at hst
    obtain rfl := Option.some.inj (hst.symm.trans hst')
    exact splitHashes_ok hserves.hashes_ok
  have hbefore : ∀ {main : SenderPc}, main = t.sender.main → ¬ main.Serving := by
    rintro main rfl
    rw [h.awaiting]
    exact id
  have hheard : t'.sender.main.Heard t'.read := by
    cases hmove with
    | @sender act sender hact hstep =>
        cases act with
        | reads body => exact absurd rfl (hact body)
        | fail error => cases ha
        | _ => simp [Sender.mainStep, h.awaiting] at hstep
    | reads hbody hstep =>
        cases Sender.mainStep_moves hstep with
        | accepted hmain hqueue =>
            show t.read + 1 = 1
            rw [h.unread]
        | refused hmain =>
            -- with no stream established there is one still to be
            have hestablished := hsharing.streams
            rw [hidle] at hestablished
            exact absurd hestablished (Nat.ne_of_lt hstreams)
        | confirms hmain =>
            rw [h.awaiting] at hmain
            cases hmain
    | sendWorker hstep =>
        obtain ⟨sw, pc, e, hsw, -⟩ := Sender.workerStep_ok hstep
        rw [h.idle] at hsw
        cases hsw
    | deliver hsw hn hreceiver hstep =>
        rw [h.idle] at hsw
        cases hsw
    | _ => exact absurd hserving (hbefore rfl)
  refine ⟨fun sw hsw => ?_, fun w hw => ?_, hhashed, hroom, ?_, hheard⟩
  · rw [hidle] at hsw
    cases hsw
  · rw [h.ready.workers] at hw
    cases hw
  · rw [hsent, h.ready.main]
    rfl

/-- An honest transfer that began as `t₀` is at its start, or shares out the queue. -/
def Underway (c : Parties) (offered : List (SourceFile × FileEntry)) (bitmaps : List ChunkBitmap)
    (t₀ : Transfer) (s₀ : Session) (t : Transfer) : Prop :=
  t = t₀ ∨ ∃ s lanes, t.Sharing c offered bitmaps s₀ s lanes ∧ t.Poised c s

namespace Underway

variable {t₀ : Transfer} (hpos : 0 < c.senderConfig.frameSize.toNat)
  (hmax : c.senderConfig.frameSize.toNat ≤ MAX_FRAME_PAYLOAD)
  (hstreams : 0 < c.senderConfig.streamCount.toNat)
  (hagreed : t₀.Agreed c offered bitmaps s₀) (hsent : s₀.env.sent = []) (hroom : s₀.Recordable)
include hpos hmax hstreams hagreed hsent hroom

/-- Any step takes it past the start. -/
theorem step (h : Underway c offered bitmaps t₀ s₀ t) {a : TransferAct} (ha : a.honest = true)
    (hstep : t.step c a = some t') :
    ∃ s lanes, t'.Sharing c offered bitmaps s₀ s lanes ∧ t'.Poised c s := by
  have hmove := step_moves hstep
  rcases h with rfl | ⟨s, lanes, hsharing, hpoised⟩
  · exact ⟨s₀, [], hagreed.step hstreams ha hmove,
      hagreed.poised hstreams hsent hroom ha hmove⟩
  · obtain ⟨s', lanes', hsharing'⟩ :=
      hsharing.step hagreed.ready hagreed.offers hpos hmax hstreams ha hmove
    exact ⟨s', lanes', hsharing',
      hpoised.step hsharing hsharing' ha hmove⟩

theorem of_runs (h : Underway c offered bitmaps t₀ s₀ t) {as : List TransferAct}
    (hhonest : ∀ a ∈ as, a.honest = true) (hrun : t.runs c as = some t') :
    Underway c offered bitmaps t₀ s₀ t' :=
  Run.invariant_of (I := Underway c offered bitmaps t₀ s₀)
    (C := fun _ (a : TransferAct) => a.honest = true)
    (fun _ _ _ h ha hstep => Or.inr (h.step hpos hmax hstreams hagreed hsent hroom ha hstep)) h
    (Run.Meets.of_forall hhonest) hrun

/-- **It cannot go on for ever.** -/
theorem halts (h : Underway c offered bitmaps t₀ s₀ t) : Run.Halts (Transfer.step c) Working t := by
  -- past the start every step leaves less to do
  refine .of_next fun a t₁ ha hstep => ?_
  refine Run.halts_of_measure (Run.lighter_wellFounded less_wellFounded)
    (toDo c.senderConfig.frameSize.toNat)
    (I := fun t => ∃ s lanes, t.Sharing c offered bitmaps s₀ s lanes ∧ t.Poised c s) ?_ ?_
    (h.step hpos hmax hstreams hagreed hsent hroom ha.1 hstep)
  · intro t a t' hgoing ha hstep
    exact step hpos hmax hstreams hagreed hsent hroom (Or.inr hgoing) ha.1 hstep
  · rintro t a t' ⟨s, lanes, hsharing, -⟩ ha hstep
    obtain ⟨accept, totalBytes, hrunning⟩ := hsharing.receiver
    exact lighter hrunning hsharing.serving (fun _ _ _ => hpos) ha.2 (step_moves hstep)

omit hsent hroom in
/-- **It stops where it is completed.** -/
theorem completed (h : Underway c offered bitmaps t₀ s₀ t)
    (hstuck : Run.Stuck (Transfer.step c) Working t) : t.Completed c offered bitmaps s₀ := by
  rcases h with rfl | ⟨s, lanes, hsharing, hpoised⟩
  · -- at the start the answer is there to be read
    obtain ⟨totalBytes, hrunning⟩ := hagreed.receiver
    have hnone := hstuck .reads ⟨rfl, rfl⟩
    simp only [Transfer.step, hrunning, hagreed.unread, Receiver.messages,
      List.getElem?_cons_zero, Sender.mainStep, hagreed.awaiting, Option.map_some] at hnone
    cases hnone
  · exact hsharing.completed_of_stuck hpoised hstuck hagreed.ready hagreed.offers hpos hmax hstreams

end Underway

/-- The steps of the two ends cannot go on for ever, in whatever order they are taken; wherever none is
    enabled the transfer is completed; so it can be completed. -/
structure GetsDone (c : Parties) (offered : List (SourceFile × FileEntry))
    (bitmaps : List ChunkBitmap) (s₀ : Session) (t : Transfer) : Prop where
  finite : ¬ ∃ f : Nat → Transfer, f 0 = t ∧ ∀ n, Run.Next (step c) Working (f (n + 1)) (f n)
  stops : Run.Stuck (step c) Working t → t.Completed c offered bitmaps s₀
  reaches : ∃ bs t', (∀ b ∈ bs, Working b) ∧ t.runs c bs = some t' ∧
    t'.Completed c offered bitmaps s₀

theorem Underway.getsDone {t₀ : Transfer} (h : Underway c offered bitmaps t₀ s₀ t)
    (hpos : 0 < c.senderConfig.frameSize.toNat)
    (hmax : c.senderConfig.frameSize.toNat ≤ MAX_FRAME_PAYLOAD)
    (hstreams : 0 < c.senderConfig.streamCount.toNat)
    (hagreed : t₀.Agreed c offered bitmaps s₀) (hsent : s₀.env.sent = []) (hroom : s₀.Recordable) :
    t.GetsDone c offered bitmaps s₀ := by
  have hhalts := h.halts hpos hmax hstreams hagreed hsent hroom
  refine ⟨hhalts.not_forever, h.completed hpos hmax hstreams hagreed, ?_⟩
  obtain ⟨bs, t', hbs, hruns, hstuck⟩ := hhalts.exists_stuck
  have hend : Underway c offered bitmaps t₀ s₀ t' :=
    h.of_runs hpos hmax hstreams hagreed hsent hroom (fun b hb => (hbs b hb).1) hruns
  exact ⟨bs, t', hbs, hruns, hend.completed hpos hmax hstreams hagreed hstuck⟩

/-- **An honest transfer gets done**, over at least one stream and in frames that are neither empty nor
    longer than `MAX_FRAME_PAYLOAD`. From the receiver's `Accept` on, where its bitmaps are true, its
    destinations are apart from its records and there is room for these (`Session.Ready`,
    `Session.Recordable`), and while no call fails and no stream is cut, the steps of the two ends
    cannot go on for ever, in whatever order they are taken; wherever none is enabled, both ends have
    returned `Ok` and every file is delivered; so every run can be completed. -/
theorem honest_transfer_completes {t₀ : Transfer} (hpos : 0 < c.senderConfig.frameSize.toNat)
    (hmax : c.senderConfig.frameSize.toNat ≤ MAX_FRAME_PAYLOAD)
    (hstreams : 0 < c.senderConfig.streamCount.toNat)
    (hagreed : t₀.Agreed c offered bitmaps s₀) (hsent : s₀.env.sent = []) (hroom : s₀.Recordable)
    {as : List TransferAct} (hhonest : ∀ a ∈ as, a.honest = true) (hrun : t₀.runs c as = some t) :
    t.GetsDone c offered bitmaps s₀ := by
  have hstart : Underway c offered bitmaps t₀ s₀ t₀ := Or.inl rfl
  have hunderway := hstart.of_runs hpos hmax hstreams hagreed hsent hroom hhonest hrun
  exact hunderway.getsDone hpos hmax hstreams hagreed hsent hroom

end Transfer

/-- The receiver has written nothing past `Accept`, and has room for the records of its files. -/
def Transfer.roomy (t : Transfer) : Bool :=
  match t.receiver with
  | .running _ _ s => s.env.sent.isEmpty && s.env.files.entries.all fun e =>
      s.env.disk.isDir e.2.sink.path.dropLast &&
        decide (s.env.disk.node (statePath e.2.sink.path) ≠ some .dir ∧
          s.env.disk.node (tmpPath e.2.sink.path) ≠ some .dir)
  | _ => false

theorem Transfer.recordable_of_roomy {t : Transfer} (h : t.roomy = true) :
    ∃ accept totalBytes s, t.receiver = .running accept totalBytes s ∧ s.env.sent = [] ∧
      s.Recordable := by
  unfold roomy at h
  split at h
  · next accept totalBytes s hreceiver =>
      simp only [Bool.and_eq_true, List.all_eq_true, decide_eq_true_eq] at h
      exact ⟨accept, totalBytes, s, hreceiver, List.isEmpty_iff.1 h.1, fun id st hst =>
        h.2 _ (AList.mem_lookup_iff.1 hst)⟩
  · cases h

theorem SenderPc.awaiting_of_isAwaiting {main : SenderPc} (h : main.isAwaiting = true) :
    main = .awaitingAccept := by
  unfold isAwaiting at h
  split at h
  · rfl
  · cases h

/-- The answer to the offer of one byte, with room for its record, found by evaluation. -/
theorem exists_agreed_oneByte : ∃ (t₀ : Transfer) (s₀ : Session)
    (offered : List (SourceFile × FileEntry)) (bitmaps : List ChunkBitmap),
    t₀.Agreed oneByteParties offered bitmaps s₀ ∧ s₀.env.sent = [] ∧ s₀.Recordable := by
  obtain ⟨t₁, ht₁, hawaits⟩ := Transfer.exists_runs oneByteParties oneByteGreeted
    (fun t => t.sender.main.isAwaiting && ((t.step oneByteParties
      (.offer [allCallsSucceed] true)).any fun t₀ => t₀.accepted && t₀.roomy)) (by decide +kernel)
  simp only [Bool.and_eq_true, Option.any_eq_true] at hawaits
  obtain ⟨hmain, t₀, hstep, haccepted, hroomy⟩ := hawaits
  obtain ⟨accept, totalBytes, s₀, hreceiver, hsent, hroom⟩ := Transfer.recordable_of_roomy hroomy
  simp only [Transfer.accepted, hreceiver, List.all_eq_true, Bool.and_eq_true, decide_eq_true_eq]
    at haccepted
  have hfile : ∀ {id : UInt64} {st : FileState}, s₀.env.files.lookup id = some st →
      (⟨id, st⟩ : Sigma fun _ : UInt64 => FileState) ∈ s₀.env.files.entries :=
    fun hst => AList.mem_lookup_iff.1 hst
  obtain ⟨bitmaps, hagreed⟩ := Transfer.agreed_of_offer ht₁ (SenderPc.awaiting_of_isAwaiting hmain)
    hstep hreceiver
    (fun id id' st st' hst hst' => (haccepted _ (hfile hst)).2 _ (hfile hst'))
    (fun id st hst => by
      rw [(haccepted _ (hfile hst)).1]
      exact ⟨ChunkBitmap.wf_new _, rfl⟩)
    (fun i x st k _ hst hbit => by
      rw [(haccepted _ (hfile hst)).1, ChunkBitmap.has_new] at hbit
      cases hbit)
  exact ⟨t₀, s₀, _, bitmaps, hagreed, hsent, hroom⟩

theorem Transfer.honest_transfer_completes_oneByte : ∃ (t₀ : Transfer) (s₀ : Session)
    (offered : List (SourceFile × FileEntry)) (bitmaps : List ChunkBitmap),
    t₀.Agreed oneByteParties offered bitmaps s₀ ∧
      t₀.GetsDone oneByteParties offered bitmaps s₀ := by
  obtain ⟨t₀, s₀, offered, bitmaps, hagreed, hsent, hroom⟩ := exists_agreed_oneByte
  exact ⟨t₀, s₀, offered, bitmaps, hagreed,
    Transfer.honest_transfer_completes (by decide) (by decide) (by decide) hagreed hsent hroom
      (fun a ha => absurd ha List.not_mem_nil) rfl⟩

end AetherLink
