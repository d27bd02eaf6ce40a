import AetherLink.Proofs.Agreement

set_option autoImplicit false

/-! # The conversation of two honest sides

Each side gets the messages it expects, in every run, whatever fails: the receiver writes one of five
sequences of messages (`Receiver.Says`), and the sender has read one of them exactly when it has its
`Accept` (`Transfer.Paced`). So a reply never comes out of turn, and one that ends the sender's `run`
is the receiver's own verdict. -/

namespace AetherLink

/-! ## What the receiver says -/

/-- Nothing, or `Abort` with the error it returns, or `Complete` with the count it returns. -/
def Session.Says (s : Session) : Prop :=
  s.env.sent = [] ∨
    (∃ reason, s.env.sent = [.abort reason] ∧ s.main = .returned (.error (.incomplete reason))) ∨
    ∃ n, s.env.sent = [.complete n] ∧ s.main = .returned (.ok n)

/-- A session that has not returned has said nothing. -/
theorem Session.Says.silent {s : Session} (h : s.Says) (hmain : ∀ r, s.main ≠ .returned r) :
    s.env.sent = [] := by
  rcases h with hnil | ⟨reason, -, hreturned⟩ | ⟨n, -, hreturned⟩
  · exact hnil
  · exact absurd hreturned (hmain _)
  · exact absurd hreturned (hmain _)

/-- What a step of `run` says, it returns. -/
theorem MainMove.speaks {p : Params} {env : Env} {pc pc' : MainPc} {e : Effect}
    (h : MainMove p env pc pc' e) (hsent : env.sent = []) :
    Session.Says { env := env.apply e, workers := [], main := pc' } := by
  have hquiet : ∀ e : Effect, (∀ b, e ≠ .send b) → (env.apply e).sent = [] :=
    fun e he => (Env.sent_apply he).trans hsent
  cases h with
  | saving error todo hs hmove => exact .inl (hquiet _ hmove.not_send)
  | saved error todo hs hmove => exact .inl (hquiet _ hmove.not_send)
  | shelving hs hmove => exact .inl (hquiet _ hmove.not_send)
  | shelved hs hmove => exact .inl (hquiet _ hmove.not_send)
  | aborts hs he =>
      rcases he with rfl | rfl
      · exact .inl hsent
      · exact .inr (.inl ⟨_, by rw [Env.apply, hsent]; rfl, rfl⟩)
  | drops todo hs he =>
      rcases he with rfl | rfl
      · exact .inl hsent
      · exact .inl (hquiet _ nofun)
  | dropsTmp todo hs he =>
      rcases he with rfl | rfl
      · exact .inl hsent
      · exact .inl (hquiet _ nofun)
  | completes => exact .inr (.inr ⟨_, by rw [Env.apply, hsent]; rfl, rfl⟩)
  | syncs todo hs => exact .inl (hquiet _ nofun)
  | _ => exact .inl hsent

theorem Session.Says.step {p : Params} {s s' : Session} {e : Effect} (h : SessionMove p s s' e)
    (hs : s.Says) : s'.Says := by
  cases h with
  | arrives hw hopen inbox closed => exact hs
  | worker hw hmove =>
      unfold Session.Says at *
      simp only
      rw [Env.sent_apply hmove.not_send]
      exact hs
  | accepts hmain => exact .inl (hs.silent (by simp [hmain]))
  | refuses hmain error => exact .inl (hs.silent (by simp [hmain]))
  | joins hmain hended horder hnext => exact .inl (hs.silent (by simp [hmain]))
  | main hmove =>
      have hlive : ∀ r, s.main ≠ .returned r := by
        intro r hr
        rw [hr] at hmove
        cases hmove
      exact hmove.speaks (hs.silent hlive)

namespace Receiver

/-- What the receiver has said, by how it stands. -/
inductive Says : Receiver → Prop
  | awaitingHello : Says .awaitingHello
  | awaitingOffer (streamCount : UInt32) : Says (.awaitingOffer streamCount)
  | refused (error : Error) : Says (.refused [] error)
  | aborted (reason : String) (error : Error) : Says (.refused [.abort reason] error)
  | running (accept : ManifestAccept) (totalBytes : UInt64) {s : Session} (hs : s.Says) :
      Says (.running accept totalBytes s)

/-- How the receiver's `run` has ended. -/
def result? : Receiver → Option (Except Error UInt64)
  | .refused _ error => some (.error error)
  | .running _ _ s =>
      match s.main with
      | .returned r => some r
      | _ => none
  | _ => none

theorem speaks_abort (told : Bool) (reason : String) (error : Error) :
    Says (.refused (abort told reason) error) := by
  cases told with
  | false => exact .refused error
  | true => exact .aborted reason error

theorem speaks_onHello (config : Config) (told : Bool) (body : Body) :
    (onHello config told body).Says := by
  cases body with
  | hello version streamCount =>
      simp only [onHello]
      split
      · exact speaks_abort told _ _
      · split
        · exact speaks_abort told _ _
        · exact .awaitingOffer _
  | _ => exact .refused _

theorem speaks_onOffer (c : Parties) (streamCount : UInt32) (ios : List EntryIo) (written : Bool)
    (body : Body) : (onOffer c streamCount ios written body).Says := by
  cases body with
  | offer o =>
      simp only [onOffer]
      split
      · split
        · exact speaks_abort written _ _
        · exact .refused _
      · split
        · exact .running _ _ (.inl rfl)
        · exact .refused _
  | _ => exact .refused _

/-- The first message is `Accept` or the only one. -/
theorem Says.first {r : Receiver} {body : Body} (h : r.Says) (hbody : r.messages[0]? = some body) :
    (∃ accept totalBytes s, r = .running accept totalBytes s ∧ body = .accept accept) ∨
      ∃ reason error, r.result? = some (.error error) ∧ body = .abort reason := by
  cases h with
  | awaitingHello => cases hbody
  | awaitingOffer => cases hbody
  | refused error => cases hbody
  | aborted reason error => exact .inr ⟨reason, error, rfl, (Option.some.inj hbody).symm⟩
  | running accept totalBytes hs => exact .inl ⟨_, _, _, rfl, (Option.some.inj hbody).symm⟩

/-- What comes after `Accept` is the receiver's verdict. -/
theorem Says.second {r : Receiver} {body : Body} (h : r.Says) (hbody : r.messages[1]? = some body) :
    (∃ reason, body = .abort reason ∧ r.result? = some (.error (.incomplete reason))) ∨
      ∃ n, body = .complete n ∧ r.result? = some (.ok n) := by
  cases h with
  | awaitingHello => cases hbody
  | awaitingOffer => cases hbody
  | refused error => cases hbody
  | aborted reason error => cases hbody
  | @running accept totalBytes s hs =>
      have hsent : s.env.sent[0]? = some body := hbody
      rcases hs with hnil | ⟨reason, hspeech, hmain⟩ | ⟨n, hspeech, hmain⟩
      · rw [hnil] at hsent
        cases hsent
      · rw [hspeech] at hsent
        exact .inl ⟨reason, (Option.some.inj hsent).symm, by simp only [result?, hmain]⟩
      · rw [hspeech] at hsent
        exact .inr ⟨n, (Option.some.inj hsent).symm, by simp only [result?, hmain]⟩

end Receiver

/-! ## What the sender has read -/

/-- How many replies the sender has read when it is here. -/
def SenderPc.replies : SenderPc → Option Nat
  | .opening => some 0
  | .greeting => some 0
  | .offering => some 0
  | .awaitingAccept => some 0
  | .spawning _ => some 1
  | .joining _ => some 1
  | .confirming => some 1
  | .returned _ => none

namespace Sender

variable {c : Parties} {s s' : Sender} {act : Act}

/-- A step of `run` that reads nothing leaves it with as many replies. -/
theorem mainStep_replies (h : s.mainStep c.blake3 c.senderConfig c.files act = some s')
    (hact : ∀ body, act ≠ .reads body) {n : Nat} (hn : s'.main.replies = some n) :
    s.main.replies = some n := by
  cases mainStep_moves h with
  | opened hmain hlen hoffered | greets hmain | offers hmain | spawns hmain | spawned hmain
  | joins hmain hw hpc | joined hmain hw =>
      rw [hmain]
      exact hn
  | accepted hmain hqueue => exact absurd rfl (hact _)
  | refused hmain => exact absurd rfl (hact _)
  | confirms hmain => exact absurd rfl (hact _)
  | notOpened hmain | workerFailed hmain hw hpc | fails hmain => cases hn

/-- A step that reads has one more. -/
theorem mainStep_reads {body : Body}
    (h : s.mainStep c.blake3 c.senderConfig c.files (.reads body) = some s') {n : Nat}
    (hn : s'.main.replies = some n) : ∃ m, s.main.replies = some m ∧ n = m + 1 := by
  cases mainStep_moves h with
  | accepted hmain hqueue =>
      refine ⟨0, by rw [hmain]; rfl, ?_⟩
      exact (Option.some.inj hn).symm
  | refused hmain => cases hn
  | confirms hmain => cases hn

theorem workerStep_main {frameSize : UInt32} {i : Nat} {io : SendIo}
    (h : s.workerStep frameSize i io = some s') : s'.main = s.main := by
  unfold workerStep at h
  split at h
  · cases h
  · split at h
    · cases h
    · cases h
      rfl

end Sender

namespace Transfer

variable {c : Parties} {t t' : Transfer} {a : TransferAct}

/-- The receiver speaks as it should, and the sender has read as much as it should have. -/
structure Paced (t : Transfer) : Prop where
  speech : t.receiver.Says
  read : ∀ n, t.sender.main.replies = some n → t.read = n

theorem paced_init : init.Paced :=
  ⟨.awaitingHello, fun n hn => by cases hn; rfl⟩

/-- A step of the receiver's session. -/
theorem Paced.session (h : t.Paced) {accept : ManifestAccept} {totalBytes : UInt64} {s s' : Session}
    {act : SessionAct} (hreceiver : t.receiver = .running accept totalBytes s)
    (hstep : s.step (c.params totalBytes) act = some s') :
    (Receiver.running accept totalBytes s').Says := by
  obtain ⟨e, -, hmove⟩ := Session.step_moves hstep
  have hspeech := h.speech
  rw [hreceiver] at hspeech
  cases hspeech with
  | running _ _ hs => exact .running _ _ (hs.step hmove)

theorem Paced.step (h : t.Paced) (hmove : Move c t a t') : t'.Paced := by
  cases hmove with
  | sender hact hstep =>
      exact ⟨h.speech, fun n hn => h.read n (Sender.mainStep_replies hstep hact hn)⟩
  | reads hbody hstep =>
      refine ⟨h.speech, fun n hn => ?_⟩
      obtain ⟨m, hm, rfl⟩ := Sender.mainStep_reads hstep hn
      exact congrArg (· + 1) (h.read m hm)
  | sendWorker hstep =>
      refine ⟨h.speech, fun n hn => h.read n ?_⟩
      rw [← Sender.workerStep_main hstep]
      exact hn
  | hello told hreceiver hbody => exact ⟨Receiver.speaks_onHello _ _ _, h.read⟩
  | offer written hreceiver hbody hios => exact ⟨Receiver.speaks_onOffer _ _ _ _ _, h.read⟩
  | lost error hreceiver => exact ⟨.refused error, h.read⟩
  | session hreceiver hact htaken hstep => exact ⟨h.session hreceiver hstep, h.read⟩
  | deliver hw hn hreceiver hstep => exact ⟨h.session hreceiver hstep, h.read⟩
  | eof hw hshut hall hreceiver hstep => exact ⟨h.session hreceiver hstep, h.read⟩
  | cut hreceiver hstep => exact ⟨h.session hreceiver hstep, h.read⟩

theorem paced_of_runs {as : List TransferAct} (hrun : init.runs c as = some t) : t.Paced :=
  Run.invariant (fun _ _ _ h hstep => h.step (step_moves hstep)) paced_init hrun

/-- What a reply does to the sender, where the receiver stands as it does. -/
inductive Decides (c : Parties) (t : Transfer) : SenderPc → Prop
  /-- the offer is accepted, and the queue built -/
  | accepted {accept : ManifestAccept} {totalBytes : UInt64} {s : Session} {queue : List WorkItem}
      {bytes : UInt64} (hreceiver : t.receiver = .running accept totalBytes s)
      (hqueue : buildQueue accept t.sender.offered 0 ([], 0) = .ok (queue, bytes)) :
      Decides c t (.spawning c.senderConfig.streamCount.toNat)
  /-- the offer is accepted, and a bitmap in the answer does not fit its file -/
  | unusable {accept : ManifestAccept} {totalBytes : UInt64} {s : Session} {e : Error}
      (hreceiver : t.receiver = .running accept totalBytes s)
      (hqueue : buildQueue accept t.sender.offered 0 ([], 0) = .error e) :
      Decides c t (.returned (.error e))
  /-- the receiver has given up, and has said why -/
  | aborted {reason : String} {error : Error} (hended : t.receiver.result? = some (.error error))
      (hsaid : .abort reason ∈ t.receiver.messages) :
      Decides c t (.returned (.error (.peerAborted reason)))
  /-- the receiver is done -/
  | completed {n : UInt64} (hended : t.receiver.result? = some (.ok n)) :
      Decides c t (.returned (.ok (max n t.sender.bytesToSend)))

theorem Paced.decides (h : t.Paced) (hstep : t.step c .reads = some t') :
    t.Decides c t'.sender.main := by
  cases step_moves hstep with
  | @reads body s hbody hmain =>
      have hread : ∀ {n}, t.sender.main.replies = some n → t.receiver.messages[n]? = some body :=
        fun hn => h.read _ hn ▸ hbody
      cases hpc : t.sender.main with
      | awaitingAccept =>
          have hmove : s = t.sender.onReply c.senderConfig body := by
            simp only [Sender.mainStep, hpc, Option.some.injEq] at hmain
            exact hmain.symm
          subst hmove
          have hsaid := hread (n := 0) (by rw [hpc]; rfl)
          rcases h.speech.first hsaid with
            ⟨accept, totalBytes, r, hreceiver, rfl⟩ | ⟨reason, error, hended, rfl⟩
          · show t.Decides c (t.sender.onReply c.senderConfig (.accept accept)).main
            rw [Sender.onReply]
            split
            · next hqueue => exact .unusable hreceiver hqueue
            · next hqueue => exact .accepted hreceiver hqueue
          · exact .aborted hended (List.mem_of_getElem? hsaid)
      | confirming =>
          have hmove : s = { t.sender with main := .returned (t.sender.confirmation body) } := by
            simp only [Sender.mainStep, hpc, Option.some.injEq] at hmain
            exact hmain.symm
          subst hmove
          have hsaid := hread (n := 1) (by rw [hpc]; rfl)
          rcases h.speech.second hsaid with ⟨reason, rfl, hended⟩ | ⟨n, rfl, hended⟩
          · exact .aborted hended (List.mem_of_getElem? hsaid)
          · exact .completed hended
      | _ => simp only [Sender.mainStep, hpc, reduceCtorEq] at hmain

/-- **The conversation of two honest sides goes as it should**, in every run of a transfer, whatever
    calls fail and wherever streams are cut. The receiver has said one of five things; what it reads
    first is a `Hello` of its own version, and then the offer of the sender's files; and any reply the
    sender reads is the answer to its offer, or the verdict the receiver has returned. -/
theorem conversation_in_step {as : List TransferAct} (hrun : init.runs c as = some t) :
    t.receiver.Says ∧
    (∀ told t', t.step c (.hello told) = some t' →
      t'.receiver = .onHello c.receiverConfig told c.helloBody) ∧
    (∀ ios written t', t.step c (.offer ios written) = some t' →
      ∃ streamCount, t.receiver = .awaitingOffer streamCount ∧ c.Offers t.sender.offered ∧
        t'.receiver = .onOffer c streamCount ios written (c.offerBody t.sender.offered)) ∧
    ∀ t', t.step c .reads = some t' → t.Decides c t'.sender.main := by
  have hpaced := paced_of_runs hrun
  have hspoken := (tied_of_runs hrun).spoken
  refine ⟨hpaced.speech, fun told t' hstep => ?_, fun ios written t' hstep => ?_,
    fun t' hstep => hpaced.decides hstep⟩
  · cases step_moves hstep with
    | hello told hreceiver hbody =>
        obtain rfl := Option.some.inj (hspoken.message hbody)
        rfl
  · cases step_moves hstep with
    | offer written hreceiver hbody hios =>
        obtain rfl := Option.some.inj (hspoken.message hbody)
        have hne : t.sender.messages ≠ [] := by
          intro hnil
          rw [hnil] at hbody
          cases hbody
        exact ⟨_, hreceiver, hspoken.offered (.inr hne), rfl⟩

/-- Everything has been sent and received, and the sender reads the last reply. -/
theorem conversation_in_step_oneByte :
    ∃ t t', init.runs oneByteParties oneByteTransferred.dropLast = some t ∧
      t.step oneByteParties .reads = some t' ∧ t.receiver.Says ∧
      t.Decides oneByteParties t'.sender.main := by
  obtain ⟨t, hrun, hreads⟩ := exists_runs oneByteParties oneByteTransferred.dropLast
    (fun t => (t.step oneByteParties .reads).isSome) (by decide +kernel)
  obtain ⟨t', hstep⟩ := Option.isSome_iff_exists.1 hreads
  obtain ⟨hspeech, -, -, hdecides⟩ := conversation_in_step hrun
  exact ⟨t, t', hrun, hstep, hspeech, hdecides t' hstep⟩

end Transfer

end AetherLink
