import AetherLink.Proofs.Sender
import AetherLink.Proofs.Completion

set_option autoImplicit false

/-! # Agreement on success

The sender returns `Ok` only over a `Complete` it has read, and the receiver writes that message at
the end of its completeness loop. What the loop has established by then (`Session.Swept`) is about
every offered file, whose ids are distinct. A worker that has ended in an error, and a bitmap that is
incomplete once every stream has ended, stay so: neither is compatible with a `Complete`. -/

namespace AetherLink

open Bytes Storage

/-! ## Streams are counted -/

/-- Every stream announced is accepted before the join. -/
structure Session.Counted (n : Nat) (s : Session) : Prop where
  spawning : ∀ left, s.main = .spawning left → s.workers.length + left = n
  joining : s.main = .joining → s.workers.length = n
  swept : ∀ todo, s.main.unswept = some todo → s.workers.length = n

theorem Session.Counted.step {p : Params} {n : Nat} {s s' : Session} {e : Effect}
    (h : SessionMove p s s' e) (hs : s.Counted n) : s'.Counted n := by
  cases h with
  | arrives hw hopen inbox closed =>
      refine ⟨?_, ?_, ?_⟩ <;> simp only [List.length_set]
      · exact hs.spawning
      · exact hs.joining
      · exact hs.swept
  | worker hw hmove =>
      refine ⟨?_, ?_, ?_⟩ <;> simp only [List.length_set]
      · exact hs.spawning
      · exact hs.joining
      · exact hs.swept
  | @accepts left hmain =>
      refine ⟨fun left' hl => ?_, by simp, by simp [MainPc.unswept]⟩
      cases hl
      have := hs.spawning _ hmain
      simp only [List.length_append, List.length_singleton]
      omega
  | refuses hmain error => exact ⟨by simp, by simp, by simp [MainPc.unswept]⟩
  | joins hmain hended horder hnext =>
      rcases hnext with ⟨error, -, rfl⟩ | ⟨-, rfl⟩
      · exact ⟨by simp, by simp, by simp [MainPc.unswept]⟩
      · exact ⟨by simp, by simp, fun _ _ => hs.joining hmain⟩
  | @main main e hmove =>
      refine ⟨fun left hl => ?_, fun hj => ?_, fun todo htodo => ?_⟩
      · simp only at hl
        subst hl
        generalize s.main = pc at hmove
        cases hmove
      · simp only at hj
        subst hj
        generalize hpc : s.main = pc at hmove
        cases hmove with
        | spawned => exact hs.spawning 0 hpc
      · rcases (hmove.sweeps htodo).2 with hold | ⟨id, st, hpc, -, -, -⟩
        · exact hs.swept todo hold
        · exact hs.swept (id :: todo) (by rw [hpc]; rfl)

theorem Session.counted_of_runs {p : Params} {st : OfferState} {streamCount : UInt32}
    {as : List SessionAct} {s : Session} (hrun : (Session.start st streamCount).runs p as = some s) :
    s.Counted streamCount.toNat := by
  refine Run.invariant (fun s a s' hs hstep => ?_) ?_ hrun
  · obtain ⟨e, -, hmove⟩ := Session.step_moves hstep
    exact hs.step hmove
  · refine ⟨fun left hl => ?_, by simp [Session.start], by simp [Session.start, MainPc.unswept]⟩
    cases hl
    simp [Session.start]

/-- Control messages are only added to. -/
theorem Env.sent_prefix (env : Env) (e : Effect) : env.sent <+: (env.apply e).sent := by
  cases e with
  | send body => exact List.prefix_append _ _
  | _ => exact List.prefix_refl _

theorem SessionMove.sent_prefix {p : Params} {s s' : Session} {e : Effect}
    (h : SessionMove p s s' e) : s.env.sent <+: s'.env.sent := by
  rw [h.env_eq]
  exact s.env.sent_prefix e

/-! ## What ties the two sides together -/

/-- The receiver's session is a run over the offer the sender made, and the sender returns `Ok` over
    a `Complete` the receiver has written. -/
structure Transfer.Tied (c : Parties) (t : Transfer) : Prop where
  spoken : t.sender.Spoken c
  awaiting : ∀ n, t.receiver = .awaitingOffer n →
    n = c.senderConfig.streamCount.toUInt32 ∧ t.sender.messages ≠ []
  running : ∀ accept totalBytes s, t.receiver = .running accept totalBytes s →
    t.sender.messages ≠ [] ∧ ∃ entries st as,
      offerLoop c.blake3 c.receiverConfig c.outputDir c.senderConfig.chunkSize (.init c.disk)
        entries = .ok st ∧
      entries.map Prod.fst = t.sender.offered.map Prod.snd ∧
      (Session.start st c.senderConfig.streamCount.toUInt32).runs (c.params totalBytes) as = some s
  confirmed : ∀ n, t.sender.main = .returned (.ok n) → ∃ m, .complete m ∈ t.receiver.messages

theorem Transfer.tied_init (c : Parties) : Transfer.init.Tied c :=
  ⟨Sender.spoken_init c, by simp [init], by simp [init], by simp [init, Sender.init]⟩

namespace Receiver

theorem not_complete_abort (told : Bool) (reason : String) (m : UInt64) :
    .complete m ∉ abort told reason := by
  cases told <;> simp [abort]

/-- Nothing said before `Accept` is a `Complete`. -/
theorem not_complete_onHello (config : Config) (told : Bool) (body : Body) (m : UInt64) :
    .complete m ∉ (onHello config told body).messages := by
  cases body with
  | hello version streamCount =>
      simp only [onHello]
      split
      · exact not_complete_abort told _ m
      · split
        · exact not_complete_abort told _ m
        · simp [messages]
  | _ => simp [onHello, unexpected, messages]

theorem not_complete_onOffer (c : Parties) (streamCount : UInt32) (ios : List EntryIo)
    (written : Bool) (body : Body) (m : UInt64) :
    .complete m ∉ (onOffer c streamCount ios written body).messages := by
  cases body with
  | offer o =>
      simp only [onOffer]
      split
      · simp only [messages]
        split
        · exact not_complete_abort written _ m
        · simp
      · split <;> simp [messages, Session.start]
  | _ => simp [onOffer, unexpected, messages]

end Receiver

/-- `run` on the sending side returns `Ok` over a `Complete`. -/
theorem Sender.mainStep_ok {c : Parties} {s s' : Sender} {act : Act} {n : UInt64}
    (h : s.mainStep c.blake3 c.senderConfig c.files act = some s')
    (hret : s'.main = .returned (.ok n)) : ∃ m, act = .reads (.complete m) := by
  cases mainStep_moves h with
  | @confirms body hmain =>
      cases body with
      | complete m => exact ⟨m, rfl⟩
      | _ => cases hret
  | _ => cases hret

namespace Transfer

variable {c : Parties} {t t' : Transfer} {a : TransferAct}

/-- A step of the sender's `run` keeps the two sides tied. -/
theorem Tied.sender_step (h : t.Tied c) {act : Sender.Act} {s : Sender} {read : Nat}
    (hstep : t.sender.mainStep c.blake3 c.senderConfig c.files act = some s)
    (hok : ∀ n, s.main = .returned (.ok n) → ∃ m, .complete m ∈ t.receiver.messages) :
    ({ t with sender := s, read := read } : Transfer).Tied c := by
  have hsettled := fun hsaid => Sender.mainStep_settled hstep h.spoken hsaid
  have hsaid : t.sender.messages ≠ [] → s.messages ≠ [] := by
    intro hne hnil
    have := (hsettled hne).2
    rw [hnil, List.prefix_nil] at this
    exact hne this
  refine ⟨Sender.mainStep_spoken hstep h.spoken, fun n hn => ?_, fun accept totalBytes r hr => ?_,
    hok⟩
  · obtain ⟨heq, hne⟩ := h.awaiting n hn
    exact ⟨heq, hsaid hne⟩
  · obtain ⟨hne, entries, st, as, hoffer, hentries, hruns⟩ := h.running accept totalBytes r hr
    exact ⟨hsaid hne, entries, st, as, hoffer, by rw [hentries, (hsettled hne).1], hruns⟩

/-- A step of the receiver's session, with the sender's workers moved on, keeps them tied. -/
theorem Tied.session_step (h : t.Tied c) {accept : ManifestAccept} {totalBytes : UInt64}
    {r r' : Session} {act : SessionAct} (hreceiver : t.receiver = .running accept totalBytes r)
    (hstep : r.step (c.params totalBytes) act = some r') {s : Sender}
    (hs : s.main = t.sender.main ∧ s.messages = t.sender.messages ∧ s.offered = t.sender.offered) :
    ({ t with sender := s, receiver := .running accept totalBytes r' } : Transfer).Tied c := by
  obtain ⟨hmain, hmessages, hoffered⟩ := hs
  refine ⟨?_, by simp, fun accept' totalBytes' r'' hr => ?_, fun n hn => ?_⟩
  · refine ⟨?_, ?_, ?_, ?_⟩ <;> simp only [hmain, hmessages, hoffered]
    · exact h.spoken.silent
    · exact h.spoken.greeted
    · exact h.spoken.said
    · exact h.spoken.offered
  · simp only [Receiver.running.injEq] at hr
    obtain ⟨rfl, rfl, rfl⟩ := hr
    obtain ⟨hne, entries, st, as, hoffer, hentries, hruns⟩ :=
      h.running accept totalBytes r hreceiver
    exact ⟨hmessages ▸ hne, entries, st, as ++ [act], hoffer, hentries.trans (by rw [hoffered]),
      Run.runs_snoc hruns hstep⟩
  · obtain ⟨m, hm⟩ := h.confirmed n (hmain ▸ hn)
    obtain ⟨e, -, hmove⟩ := Session.step_moves hstep
    rw [hreceiver, Receiver.messages] at hm
    refine ⟨m, ?_⟩
    rcases List.mem_cons.1 hm with hm | hm
    · cases hm
    · exact List.mem_cons_of_mem _ (hmove.sent_prefix.subset hm)

theorem Tied.step (h : t.Tied c) (hmove : Move c t a t') : t'.Tied c := by
  cases hmove with
  | sender hact hstep =>
      refine h.sender_step hstep fun n hn => ?_
      obtain ⟨m, hm⟩ := Sender.mainStep_ok hstep hn
      exact absurd hm (hact _)
  | reads hbody hstep =>
      refine h.sender_step hstep fun n hn => ?_
      obtain ⟨m, hm⟩ := Sender.mainStep_ok hstep hn
      cases hm
      exact ⟨m, List.mem_of_getElem? hbody⟩
  | sendWorker hstep =>
      simp only [Sender.workerStep] at hstep
      split at hstep
      · cases hstep
      · split at hstep
        · cases hstep
        · cases hstep
          exact ⟨⟨h.spoken.silent, h.spoken.greeted, h.spoken.said, h.spoken.offered⟩, h.awaiting,
            h.running, h.confirmed⟩
  | @hello told body hreceiver hbody =>
      have hne : t.sender.messages ≠ [] := by
        intro hnil
        simp [hnil] at hbody
      obtain rfl := Option.some.inj (h.spoken.message hbody)
      have hquiet : ∀ n, t.sender.main ≠ .returned (.ok n) := by
        intro n hn
        obtain ⟨m, hm⟩ := h.confirmed n hn
        simp [hreceiver, Receiver.messages] at hm
      refine ⟨h.spoken, fun n hn => ?_, fun accept totalBytes r hr => ?_,
        fun n hn => absurd hn (hquiet n)⟩
      · simp only [Receiver.onHello, Parties.helloBody] at hn
        split at hn
        · cases hn
        · split at hn
          · cases hn
          · cases hn
            exact ⟨rfl, hne⟩
      · simp only [Receiver.onHello, Parties.helloBody] at hr
        split at hr
        · cases hr
        · split at hr <;> cases hr
  | @offer ios written streamCount body hreceiver hbody hios =>
      obtain ⟨rfl, hne⟩ := h.awaiting _ hreceiver
      obtain rfl := Option.some.inj (h.spoken.message hbody)
      have hquiet : ∀ n, t.sender.main ≠ .returned (.ok n) := by
        intro n hn
        obtain ⟨m, hm⟩ := h.confirmed n hn
        simp [hreceiver, Receiver.messages] at hm
      refine ⟨h.spoken, fun n hn => ?_, fun accept totalBytes r hr => ?_,
        fun n hn => absurd hn (hquiet n)⟩
      · simp only [Receiver.onOffer, Parties.offerBody] at hn
        split at hn
        · cases hn
        · split at hn <;> cases hn
      · simp only [Receiver.onOffer, Parties.offerBody] at hr
        split at hr
        · cases hr
        · next st hst =>
            split at hr
            · cases hr
              refine ⟨hne, _, st, [], hst, List.map_fst_zip ?_, rfl⟩
              rw [List.length_map, (h.spoken.offered (Or.inr hne)).length_eq, hios]
            · cases hr
  | lost error hreceiver =>
      refine ⟨h.spoken, by simp, by simp, fun n hn => ?_⟩
      obtain ⟨m, hm⟩ := h.confirmed n hn
      rcases hreceiver with hreceiver | ⟨streamCount, hreceiver⟩ <;>
        simp [hreceiver, Receiver.messages] at hm
  | session hreceiver hact htaken hstep =>
      exact h.session_step hreceiver hstep ⟨rfl, rfl, rfl⟩
  | deliver hw hn hreceiver hstep => exact h.session_step hreceiver hstep ⟨rfl, rfl, rfl⟩
  | eof hw hshut hall hreceiver hstep => exact h.session_step hreceiver hstep ⟨rfl, rfl, rfl⟩
  | cut hreceiver hstep => exact h.session_step hreceiver hstep ⟨rfl, rfl, rfl⟩

theorem tied_of_runs {as : List TransferAct} (hrun : Transfer.init.runs c as = some t) :
    t.Tied c :=
  Run.invariant (fun _ _ _ hs hstep => hs.step (step_moves hstep)) (tied_init c) hrun

/-- The session of the receiver is a run of an accepted offer of the sender's files. -/
theorem Tied.session_facts (h : t.Tied c) {accept : ManifestAccept} {totalBytes : UInt64}
    {s : Session} (hreceiver : t.receiver = .running accept totalBytes s) :
    s.Swept ∧ s.Counted c.senderConfig.streamCount.toNat ∧ c.Offers t.sender.offered ∧
      ∀ x ∈ t.sender.offered, ∃ st, s.env.files.lookup x.2.fileId = some st ∧
        st.Serves c.blake3 c.outputDir c.senderConfig.chunkSize x.2 := by
  obtain ⟨hne, entries, st, as, hoffer, hentries, hruns⟩ := h.running accept totalBytes s hreceiver
  have hoffers := h.spoken.offered (Or.inr hne)
  have hcounted := Session.counted_of_runs hruns
  rw [UInt8.toNat_toUInt32] at hcounted
  refine ⟨Session.swept_of_runs hruns, hcounted, hoffers, fun x hx => ?_⟩
  have hids : (entries.map fun x => x.1.fileId).Nodup := by
    have hmap : (entries.map fun x => x.1.fileId) = (entries.map Prod.fst).map fun y => y.fileId := by
      rw [List.map_map]
      rfl
    rw [hmap, hentries, List.map_map]
    exact hoffers.nodup_ids
  have hmem : x.2 ∈ entries.map Prod.fst := hentries ▸ List.mem_map_of_mem hx
  obtain ⟨y, hy, hyx⟩ := List.mem_map.1 hmem
  obtain ⟨fs₀, hfs₀, hserves⟩ := (accepted_offerLoop hoffer).kept hids y hy
  obtain ⟨fs, hfs, hsame⟩ := Session.sameStates_of_runs hruns _ fs₀ hfs₀
  exact ⟨fs, hyx ▸ hfs, hyx ▸ hserves.mono hsame⟩

/-- The receiver, with the session `s`, is about to write its first `Complete`: all its workers have
    been joined and none ended in an error, and every file of the sender is complete and flushed. -/
structure Confirming (c : Parties) (t : Transfer) (s : Session) : Prop where
  main : s.main = .completing
  joined : s.workers.length = c.senderConfig.streamCount.toNat
  ended : ∀ w ∈ s.workers, w.pc = .ended (.ok ())
  unsaid : ∀ m, .complete m ∉ t.receiver.messages
  landed : ∀ i f, c.files[i]? = some f → ∃ x st, t.sender.offered[i]? = some x ∧
    OfferedAs c.blake3 c.senderConfig.chunkSize f i x ∧
    s.env.files.lookup (UInt64.ofNat i) = some st ∧
    st.Serves c.blake3 c.outputDir c.senderConfig.chunkSize x.2 ∧ st.Landed s.env.disk

/-- **The step that writes `Complete`.** -/
theorem Tied.confirming (h : t.Tied c) (hmove : Move c t a t')
    (hbefore : ¬ ∃ m, .complete m ∈ t.receiver.messages)
    (hafter : ∃ m, .complete m ∈ t'.receiver.messages) :
    ∃ accept totalBytes s, t.receiver = .running accept totalBytes s ∧ t.Confirming c s := by
  obtain ⟨m, hm⟩ := hafter
  -- only a step of the session adds a `Complete`
  have hsession : ∀ accept totalBytes s s' act, t.receiver = .running accept totalBytes s →
      s.step (c.params totalBytes) act = some s' → .complete m ∈ s'.env.sent →
      ∃ accept totalBytes s, t.receiver = .running accept totalBytes s ∧ t.Confirming c s := by
    intro accept totalBytes s s' act hreceiver hstep hsent
    obtain ⟨hswept, hcounted, hoffers, hall⟩ := h.session_facts hreceiver
    have hnot : Body.complete m ∉ s.env.sent := by
      intro hmem
      refine hbefore ⟨m, ?_⟩
      rw [hreceiver]
      exact List.mem_cons_of_mem _ hmem
    obtain ⟨e, -, hsm⟩ := Session.step_moves hstep
    have hcompleting : s.main = .completing := by
      cases hsm with
      | main hmm => exact ((hmm.complete_sent hsent).resolve_left hnot).1
      | worker hw hwm =>
          rw [Env.sent_apply hwm.not_send] at hsent
          exact absurd hsent hnot
      | _ => exact absurd hsent hnot
    have hunswept : s.main.unswept = some [] := by rw [hcompleting]; rfl
    refine ⟨accept, totalBytes, s, hreceiver, hcompleting, hcounted.swept _ hunswept,
      hswept.ended _ hunswept, fun m' hm' => hbefore ⟨m', hm'⟩, fun i f hf => ?_⟩
    obtain ⟨x, hx, hoff⟩ := hoffers.of_file hf
    obtain ⟨st, hst, hserves⟩ := hall x (List.mem_of_getElem? hx)
    rw [hoffers.fileId_eq hx] at hst
    exact ⟨x, st, hx, hoff, hst, hserves, hswept.landed _ _ st hunswept hst (by simp)⟩
  cases hmove with
  | sender hact hstep => exact absurd ⟨m, hm⟩ hbefore
  | reads hbody hstep => exact absurd ⟨m, hm⟩ hbefore
  | sendWorker hstep => exact absurd ⟨m, hm⟩ hbefore
  | hello told hreceiver hbody => exact absurd hm (Receiver.not_complete_onHello _ _ _ m)
  | offer written hreceiver hbody hios => exact absurd hm (Receiver.not_complete_onOffer _ _ _ _ _ m)
  | lost error hreceiver => simp [Receiver.messages] at hm
  | session hreceiver hact htaken hstep =>
      exact hsession _ _ _ _ _ hreceiver hstep (by simpa [Receiver.messages] using hm)
  | deliver hw hn hreceiver hstep =>
      exact hsession _ _ _ _ _ hreceiver hstep (by simpa [Receiver.messages] using hm)
  | eof hw hshut hall hreceiver hstep =>
      exact hsession _ _ _ _ _ hreceiver hstep (by simpa [Receiver.messages] using hm)
  | cut hreceiver hstep =>
      exact hsession _ _ _ _ _ hreceiver hstep (by simpa [Receiver.messages] using hm)

end Transfer

/-! ## What rules a `Complete` out -/

/-- A worker has ended in an error, or every one of the `n` streams has ended and a bitmap is
    incomplete. -/
def Session.Spoiled (n : Nat) (s : Session) : Prop :=
  (∃ w ∈ s.workers, ∃ e, w.pc = .ended (.error e)) ∨
    (s.workers.length = n ∧ (∀ w ∈ s.workers, ∃ r, w.pc = .ended r) ∧
      ∃ id st, s.env.files.lookup id = some st ∧ st.bitmap.isComplete = false)

/-- An incomplete bitmap stays incomplete where no bit is set. -/
theorem Env.incomplete_apply {env : Env} {e : Effect} (he : ∀ id i, e ≠ .setBit id i)
    (h : ∃ id st, env.files.lookup id = some st ∧ st.bitmap.isComplete = false) :
    ∃ id st, (env.apply e).files.lookup id = some st ∧ st.bitmap.isComplete = false := by
  obtain ⟨id, st, hst, hinc⟩ := h
  refine ⟨id, _, Env.lookup_apply_of hst, ?_⟩
  rw [Effect.bitmap_onFile_of_ne id st (he id)]
  exact hinc

/-- **What is spoiled stays spoiled.** -/
theorem Session.Spoiled.step {p : Params} {n : Nat} {s s' : Session} {e : Effect}
    (h : SessionMove p s s' e) (hcounted : s.Counted n) (hs : s.Spoiled n) : s'.Spoiled n := by
  cases h with
  | @arrives i w hw hopen inbox closed =>
      -- an arrival leaves the worker where it is in its loop
      rcases hs with ⟨v, hv, e, he⟩ | ⟨hlen, hended, hinc⟩
      · left
        obtain ⟨j, hj⟩ := List.mem_iff_getElem?.1 hv
        by_cases hij : i = j
        · subst hij
          obtain rfl := Option.some.inj (hw.symm.trans hj)
          exact ⟨_, List.mem_set (List.getElem?_eq_some_iff.1 hw).1 _, e, he⟩
        · refine ⟨v, List.mem_iff_getElem?.2 ⟨j, ?_⟩, e, he⟩
          rw [List.getElem?_set_ne hij, hj]
      · right
        refine ⟨by rw [List.length_set, hlen], fun v hv => ?_, hinc⟩
        rcases List.mem_or_eq_of_mem_set hv with hv | rfl
        · exact hended v hv
        · exact hended w (List.mem_of_getElem? hw)
  | @worker i w w' e hw hmove =>
      rcases hs with ⟨v, hv, e', he⟩ | ⟨hlen, hended, hinc⟩
      · left
        obtain ⟨j, hj⟩ := List.mem_iff_getElem?.1 hv
        refine ⟨v, List.mem_iff_getElem?.2 ⟨j, ?_⟩, e', he⟩
        rw [List.getElem?_set_ne, hj]
        rintro rfl
        obtain rfl := Option.some.inj (hw.symm.trans hj)
        exact hmove.running _ he
      · obtain ⟨r, hr⟩ := hended w (List.mem_of_getElem? hw)
        exact absurd hr (hmove.running _)
  | @accepts left hmain =>
      rcases hs with ⟨v, hv, e, he⟩ | ⟨hlen, -, -⟩
      · exact Or.inl ⟨v, List.mem_append_left _ hv, e, he⟩
      · have := hcounted.spawning _ hmain
        omega
  | refuses hmain error => exact hs
  | joins hmain hended horder hnext => exact hs
  | main hmove =>
      rcases hs with hs | ⟨hlen, hended, hinc⟩
      · exact Or.inl hs
      · exact Or.inr ⟨hlen, hended, Env.incomplete_apply hmove.not_setBit hinc⟩

/-- A session that has written `Complete` is not spoiled. -/
theorem Session.Swept.not_spoiled {n : Nat} {s : Session} (h : s.Swept) {m : UInt64}
    (hsent : .complete m ∈ s.env.sent) : ¬ s.Spoiled n := by
  obtain ⟨k, hk⟩ := h.sent m hsent
  have hunswept : s.main.unswept = some [] := by rw [hk]; rfl
  rintro (⟨w, hw, e, he⟩ | ⟨-, -, id, st, hst, hinc⟩)
  · rw [h.ended _ hunswept w hw] at he
    cases he
  · have := (h.landed _ id st hunswept hst (by simp)).1
    rw [hinc] at this
    cases this

namespace Transfer

variable {c : Parties} {t t' : Transfer} {a : TransferAct}

/-- The receiver's session is spoiled. -/
def Spoiled (c : Parties) (t : Transfer) : Prop :=
  ∃ accept totalBytes s, t.receiver = .running accept totalBytes s ∧
    s.Spoiled c.senderConfig.streamCount.toNat

theorem Spoiled.step (hspoiled : t.Spoiled c) (htied : t.Tied c) (hmove : Move c t a t') :
    t'.Spoiled c := by
  obtain ⟨accept, totalBytes, s, hreceiver, hs⟩ := hspoiled
  have hsession : ∀ accept' totalBytes' s₁ s₂ act, t.receiver = .running accept' totalBytes' s₁ →
      s₁.step (c.params totalBytes') act = some s₂ →
      s₂.Spoiled c.senderConfig.streamCount.toNat := by
    intro accept' totalBytes' s₁ s₂ act hr hstep
    rw [hreceiver] at hr
    cases hr
    obtain ⟨e, -, hsm⟩ := Session.step_moves hstep
    exact hs.step hsm (htied.session_facts hreceiver).2.1
  cases hmove with
  | sender hact hstep => exact ⟨accept, totalBytes, s, hreceiver, hs⟩
  | reads hbody hstep => exact ⟨accept, totalBytes, s, hreceiver, hs⟩
  | sendWorker hstep => exact ⟨accept, totalBytes, s, hreceiver, hs⟩
  | hello told hr hbody =>
      rw [hreceiver] at hr
      cases hr
  | offer written hr hbody hios =>
      rw [hreceiver] at hr
      cases hr
  | lost error hr =>
      rw [hreceiver] at hr
      rcases hr with hr | ⟨n, hr⟩ <;> cases hr
  | session hr hact htaken hstep => exact ⟨_, _, _, rfl, hsession _ _ _ _ _ hr hstep⟩
  | deliver hw hn hr hstep => exact ⟨_, _, _, rfl, hsession _ _ _ _ _ hr hstep⟩
  | eof hw hshut hall hr hstep => exact ⟨_, _, _, rfl, hsession _ _ _ _ _ hr hstep⟩
  | cut hr hstep => exact ⟨_, _, _, rfl, hsession _ _ _ _ _ hr hstep⟩

theorem Spoiled.of_runs (hspoiled : t.Spoiled c) (htied : t.Tied c) {as : List TransferAct}
    (hrun : t.runs c as = some t') : t'.Spoiled c :=
  (Run.invariant (I := fun t : Transfer => t.Tied c ∧ t.Spoiled c)
    (fun _ _ _ h hstep => ⟨h.1.step (step_moves hstep), h.2.step h.1 (step_moves hstep)⟩)
    ⟨htied, hspoiled⟩ hrun).2

/-- The sender of a spoiled transfer has not returned `Ok`. -/
theorem Spoiled.not_ok (hspoiled : t.Spoiled c) (htied : t.Tied c) (n : UInt64) :
    t.sender.main ≠ .returned (.ok n) := by
  intro hn
  obtain ⟨accept, totalBytes, s, hreceiver, hs⟩ := hspoiled
  obtain ⟨m, hm⟩ := htied.confirmed n hn
  rw [hreceiver, Receiver.messages] at hm
  have hsent : Body.complete m ∈ s.env.sent := by
    rcases List.mem_cons.1 hm with hm | hm
    · cases hm
    · exact hm
  exact absurd hs ((htied.session_facts hreceiver).1.not_spoiled hsent)

/-- Runs found by evaluation. -/
theorem exists_runs (c : Parties) (as : List TransferAct) (check : Transfer → Bool)
    (h : (Transfer.init.runs c as).any check = true) :
    ∃ t, Transfer.init.runs c as = some t ∧ check t = true :=
  (Option.any_eq_true _ _).1 h

end Transfer

/-- One file of one byte, over one stream. -/
def oneByteParties : Parties where
  blake3 := shortFileHash
  senderConfig := plainConfig
  receiverConfig := { plainConfig with checkpointBytes := 0 }
  files := [{ path := ["a"], relativePath := "a", data := [0x41], length_lt := by decide }]
  files_length_lt := by decide
  outputDir := ["out"]
  disk := .empty

/-- Two files of one byte. -/
def twoFileParties : Parties :=
  { oneByteParties with
    files := [{ path := ["a"], relativePath := "a", data := [0x41], length_lt := by decide },
      { path := ["b"], relativePath := "b", data := [0x42], length_lt := by decide }]
    files_length_lt := by decide }

/-- The file is offered, accepted and sent on one stream. -/
def oneByteSent : List TransferAct :=
  [.sender (.opens [{ opens := true, stats := true, maps := true }]), .sender .next, .hello true,
    .sender .next, .offer [allCallsSucceed] true, .reads, .sender .next, .sender .next,
    .session .accept, .session (.main .next)] ++
  List.replicate 8 (.sendWorker 0 .next)

/-- It arrives and is written, the stream ends, and both sides agree that it is done. -/
def oneByteTransferred : List TransferAct :=
  oneByteSent ++ [.deliver 0 33] ++
  ([.next, .next, .next, .write 1, .next, .next, .next, .next, .next, .next].map fun io =>
    .session (.worker 0 io)) ++
  [.eof 0, .session (.worker 0 .next), .sendWorker 0 .next, .sender .next, .sender .next,
    .session (.join [0])] ++
  List.replicate 6 (.session (.main .next)) ++ [.reads]

/-- The sender has returned `Ok`. -/
def Sender.succeeded (s : Sender) : Bool :=
  match s.main with
  | .returned (.ok _) => true
  | _ => false

end AetherLink
