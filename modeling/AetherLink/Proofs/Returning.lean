import AetherLink.Proofs.Conversation
import AetherLink.Proofs.Liveness
import AetherLink.Proofs.Sending
import AetherLink.Proofs.Silence
import AetherLink.Proofs.Waiting

set_option autoImplicit false

/-! # The sender returns

A transfer that is spoiled ends with an error, or not at all. While anything is due its steps leave
less to do (`Transfer.lighter`), whatever fails; and where nothing is due the sender's `run` has
returned, but for one case: a sender that accepts its streams and still lacks one waits for a receiver
that has given up and will not call again (`Transfer.Parked`). The receiver does that when it fails
over a stream, which it does not tell the sender, and `next_stream` has no timeout. -/

namespace AetherLink

open Bytes Storage

/-! ## What the receiver makes of the first two messages -/

namespace Parties

variable (c : Parties)

theorem onHello_cases (told : Bool) :
    (.onHello c.receiverConfig told c.helloBody
        = Receiver.awaitingOffer c.senderConfig.streamCount.toUInt32 ∧
      c.senderConfig.streamCount.toUInt32 ≠ 0) ∨
    ∃ messages error, .onHello c.receiverConfig told c.helloBody
      = Receiver.refused messages error := by
  simp only [Receiver.onHello, helloBody]
  split
  · exact .inr ⟨_, _, rfl⟩
  · split
    · exact .inr ⟨_, _, rfl⟩
    · next hrange => exact .inl ⟨rfl, fun hzero => hrange (.inl hzero)⟩

theorem onOffer_cases (streamCount : UInt32) (ios : List EntryIo) (written : Bool)
    (offered : List (SourceFile × FileEntry)) :
    (∃ accept totalBytes st, .onOffer c streamCount ios written (c.offerBody offered)
      = Receiver.running accept totalBytes (Session.start st streamCount)) ∨
    ∃ messages error, .onOffer c streamCount ios written (c.offerBody offered)
      = Receiver.refused messages error := by
  simp only [Receiver.onOffer, offerBody]
  split
  · exact .inr ⟨_, _, rfl⟩
  · split
    · exact .inl ⟨_, _, _, rfl⟩
    · exact .inr ⟨_, _, rfl⟩

end Parties

/-! ## What holds of the sender whatever fails -/

/-- `run` has every stream it needs, or has returned. -/
def SenderPc.Established (main : SenderPc) : Prop :=
  main.Serving ∧ main.left = 0

namespace Sender

variable {blake3 : Blake3} {config : Config} {files : List OutgoingFile} {s s' : Sender} {act : Act}

theorem mainStep_established (hstep : s.mainStep blake3 config files act = some s')
    (h : s.main.Established) : s'.main.Established := by
  obtain ⟨hserving, hleft⟩ := h
  cases mainStep_moves hstep with
  | opened hmain hlen hoffered | accepted hmain hqueue =>
      rw [hmain] at hserving
      exact hserving.elim
  | greets hmain | offers hmain =>
      rw [hmain] at hserving
      exact hserving.elim
  | spawns hmain =>
      rw [hmain] at hleft
      cases hleft
  | _ => exact ⟨trivial, rfl⟩

/-- `run` adds workers, one at a time. -/
theorem mainStep_workers (hstep : s.mainStep blake3 config files act = some s') :
    s'.workers = s.workers ∨ s'.workers = s.workers ++ [SendWorker.fresh] := by
  cases mainStep_moves hstep with
  | spawns hmain => exact .inr rfl
  | _ => exact .inl rfl

/-- The offer is made once. -/
theorem mainStep_offered (hstep : s.mainStep blake3 config files act = some s') :
    s.main = .opening ∨ s'.offered = s.offered := by
  cases mainStep_moves hstep with
  | opened hmain hlen hoffered => exact .inl hmain
  | _ => exact .inr rfl

end Sender

/-- A worker is apt, and no more of its stream has arrived than is written. -/
def SendWorker.Steady (frameSize : Nat) (offered : List (SourceFile × FileEntry))
    (w : SendWorker) : Prop :=
  w.Apt frameSize offered ∧ w.stream.delivered ≤ w.stream.written.length

/-- A worker's own step takes nothing back. -/
theorem SendWorker.Steady.step {frameSize : UInt32} {s : Sender} {w : SendWorker}
    {pc : SendWorkerPc} {io : SendIo} {e : SendEffect}
    (h : w.Steady frameSize.toNat s.offered) (hpc : w.pc.step frameSize s io = some (pc, e)) :
    SendWorker.Steady frameSize.toNat s.offered { stream := e.onStream w.stream, pc := pc } := by
  refine ⟨SendWorkerPc.step_apt h.1 hpc, ?_⟩
  have hle := h.2
  cases e with
  | write bytes =>
      simp only [SendEffect.onStream, List.length_append]
      omega
  | _ => exact hle

namespace Transfer

/-- What holds of a transfer in any run: the sender has the streams and the workers it should have
    where it is, and the receiver has taken no more of them. -/
structure Staffed (c : Parties) (t : Transfer) : Prop where
  placed : t.sender.Silent ∨ t.sender.Placed c.senderConfig
  steady : ∀ sw ∈ t.sender.workers,
    sw.Steady c.senderConfig.frameSize.toNat t.sender.offered
  taken : t.taken ≤ t.sender.workers.length
  awaiting : ∀ n, t.receiver = .awaitingOffer n → n ≠ 0
  running : ∀ accept totalBytes s, t.receiver = .running accept totalBytes s →
    0 < c.senderConfig.streamCount.toNat

variable {c : Parties} {source : StreamSource} {t t' : Transfer} {a : TransferAct}

theorem staffed_init (c : Parties) : init.Staffed c :=
  ⟨.inl ⟨rfl, rfl, rfl, .inr (.inl rfl)⟩, by simp [init, Sender.init], Nat.le_refl _, nofun, nofun⟩

theorem Staffed.taken_le (h : t.Staffed c) {accept : ManifestAccept} {totalBytes : UInt64}
    {s : Session} (hreceiver : t.receiver = .running accept totalBytes s) :
    s.workers.length ≤ t.sender.workers.length := by
  have hle := h.taken
  rwa [Transfer.taken, hreceiver] at hle

/-- A turn of the sender's `run`. -/
theorem Staffed.main_step (h : t.Staffed c) {act : Sender.Act} {sender : Sender}
    (hstep : t.sender.mainStep c.blake3 c.senderConfig c.files act = some sender) (read : Nat) :
    ({ t with sender := sender, read := read } : Transfer).Staffed c := by
  have hlen : t.sender.workers.length ≤ sender.workers.length := by
    rcases Sender.mainStep_workers hstep with hsame | hmore
    · exact Nat.le_of_eq (congrArg List.length hsame.symm)
    · rw [hmore, List.length_append]
      exact Nat.le_add_right _ _
  refine ⟨?_, fun sw hsw => ?_, h.taken.trans hlen, h.awaiting, h.running⟩
  · rcases h.placed with hsilent | hplaced
    · rcases hsilent.main_step (List.mem_singleton_self (SenderAct.main act)) hstep with
        hsilent' | ⟨accept, hserves⟩
      · exact .inl hsilent'
      · exact .inr hserves.placed
    · exact .inr (hplaced.main_step hstep)
  · have hold : sw ∈ t.sender.workers ∨ sw = .fresh := by
      rcases Sender.mainStep_workers hstep with hsame | hmore
      · exact .inl (hsame ▸ hsw)
      · rw [hmore, List.mem_append, List.mem_singleton] at hsw
        exact hsw
    rcases hold with hmem | rfl
    · rcases Sender.mainStep_offered hstep with hopening | hoffered
      · -- there is no worker before the offer
        rcases h.placed with hsilent | hplaced
        · rw [hsilent.workers] at hmem
          cases hmem
        · rw [Sender.Placed, hopening] at hplaced
          exact hplaced.elim
      · show sw.Steady _ sender.offered
        rw [hoffered]
        exact h.steady sw hmem
    · exact ⟨trivial, Nat.le_refl _⟩

/-- A step of the receiver's session. -/
theorem Staffed.session_step (h : t.Staffed c) {accept : ManifestAccept} {totalBytes : UInt64}
    {s s' : Session} {act : SessionAct} (hreceiver : t.receiver = .running accept totalBytes s)
    (htaken : act = .accept → s.workers.length < t.sender.workers.length)
    (hstep : s.step (c.params totalBytes) act = some s') :
    ({ t with receiver := .running accept totalBytes s' } : Transfer).Staffed c := by
  have hle := h.taken_le hreceiver
  refine ⟨h.placed, h.steady, ?_, nofun, fun _ _ _ _ => h.running _ _ _ hreceiver⟩
  show s'.workers.length ≤ t.sender.workers.length
  obtain ⟨e, heff, -⟩ := Session.step_moves hstep
  cases Session.stepEffect_cases heff with
  | accept hmain =>
      rw [List.length_append]
      exact htaken rfl
  | deliver hw hopen | close hw hopen | worker hw hwstep => rwa [List.length_set]
  | _ => exact hle

theorem Staffed.step (h : t.Staffed c) (htied : t.Tied c) (hmove : Move c t a t') :
    t'.Staffed c := by
  cases hmove with
  | sender hact hstep => exact h.main_step hstep _
  | reads hbody hstep => exact h.main_step hstep _
  | @sendWorker i io s hstep =>
      obtain ⟨sw, pc, e, hsw, hpc, rfl⟩ := Sender.workerStep_ok hstep
      refine ⟨?_, fun v hv => ?_, ?_, h.awaiting, h.running⟩
      · rcases h.placed with hsilent | hplaced
        · rw [hsilent.workers] at hsw
          cases hsw
        · refine .inr (hplaced.worker hsw (fun r hr => ?_) rfl rfl)
          rw [hr] at hpc
          cases io <;> cases hpc
      · rcases List.mem_or_eq_of_mem_set hv with hold | rfl
        · exact h.steady v hold
        · exact (h.steady sw (List.mem_of_getElem? hsw)).step hpc
      · rw [List.length_set]
        exact h.taken
  | @hello told body hreceiver hbody =>
      obtain rfl := Option.some.inj (htied.spoken.message hbody)
      rcases c.onHello_cases told with ⟨heq, hne⟩ | ⟨messages, error, heq⟩
      · rw [heq]
        refine ⟨h.placed, h.steady, Nat.zero_le _, fun n hn => ?_, nofun⟩
        cases hn
        exact hne
      · rw [heq]
        exact ⟨h.placed, h.steady, Nat.zero_le _, nofun, nofun⟩
  | @offer ios written streamCount body hreceiver hbody hios =>
      obtain ⟨rfl, -⟩ := htied.awaiting _ hreceiver
      obtain rfl := Option.some.inj (htied.spoken.message hbody)
      have hpos : 0 < c.senderConfig.streamCount.toNat := by
        refine Nat.pos_of_ne_zero fun hzero => h.awaiting _ hreceiver (UInt32.toNat_inj.1 ?_)
        rw [UInt8.toNat_toUInt32, hzero]
        rfl
      rcases c.onOffer_cases c.senderConfig.streamCount.toUInt32 ios written t.sender.offered with
        ⟨accept, totalBytes, st, heq⟩ | ⟨messages, error, heq⟩
      · rw [heq]
        exact ⟨h.placed, h.steady, Nat.zero_le _, nofun, fun _ _ _ _ => hpos⟩
      · rw [heq]
        exact ⟨h.placed, h.steady, Nat.zero_le _, nofun, nofun⟩
  | lost error hreceiver => exact ⟨h.placed, h.steady, Nat.zero_le _, nofun, nofun⟩
  | session hreceiver hact htaken hstep => exact h.session_step hreceiver htaken hstep
  | @deliver i n sw accept totalBytes s s' hsw hn hreceiver hstep =>
      have h' := h.session_step hreceiver (by simp) hstep
      refine ⟨?_, fun v hv => ?_, ?_, h'.awaiting, h'.running⟩
      · rcases h.placed with hsilent | hplaced
        · rw [hsilent.workers] at hsw
          cases hsw
        · refine .inr (hplaced.of_pcs rfl ?_)
          obtain ⟨hi, rfl⟩ := List.getElem?_eq_some_iff.1 hsw
          have hpc : (t.sender.workers.map (·.pc))[i]? = some t.sender.workers[i].pc := by
            rw [List.getElem?_map, hsw, Option.map_some]
          obtain ⟨hj, hget⟩ := List.getElem?_eq_some_iff.1 hpc
          rw [List.map_set, ← hget, List.set_getElem_self]
      · rcases List.mem_or_eq_of_mem_set hv with hold | rfl
        · exact h.steady v hold
        · exact ⟨(h.steady sw (List.mem_of_getElem? hsw)).1, hn⟩
      · show s'.workers.length ≤ (t.sender.workers.set _ _).length
        rw [List.length_set]
        exact h'.taken
  | eof hw hshut hall hreceiver hstep => exact h.session_step hreceiver (by simp) hstep
  | cut hreceiver hstep => exact h.session_step hreceiver (by simp) hstep

/-! ## Where the sender has all of its streams -/

/-- The receiver does not give up over a stream while a sender that accepts its streams lacks one. -/
def Attended (source : StreamSource) (t : Transfer) (a : TransferAct) : Prop :=
  source = .acceptor → ∀ error, a = .session (.refuse error) → t.sender.main.Established

/-- A receiver that has not taken every stream is still at it, or it has returned, and a sender that
    accepts its streams has all of them. -/
def Minded (c : Parties) (source : StreamSource) (t : Transfer) : Prop :=
  ∀ accept totalBytes s, t.receiver = .running accept totalBytes s →
    s.workers.length + s.main.left = c.senderConfig.streamCount.toNat ∨
      ((∃ r, s.main = .returned r) ∧ (source = .acceptor → t.sender.main.Established))

/-- A step of the receiver's session. -/
theorem Minded.session_step (h : t.Minded c source) {accept : ManifestAccept} {totalBytes : UInt64}
    {s s' : Session} {act : SessionAct} (hreceiver : t.receiver = .running accept totalBytes s)
    (hact : source = .acceptor → ∀ error, act = .refuse error → t.sender.main.Established)
    (hstep : s.step (c.params totalBytes) act = some s') {sender : Sender}
    (hmain : sender.main = t.sender.main) :
    ({ t with sender := sender, receiver := .running accept totalBytes s' } :
      Transfer).Minded c source := by
  rintro accept' totalBytes' s'' heq
  cases heq
  show _ ∨ (_ ∧ (source = .acceptor → sender.main.Established))
  rw [hmain]
  have hbefore := h _ _ _ hreceiver
  obtain ⟨e, heff, -⟩ := Session.step_moves hstep
  cases Session.stepEffect_cases heff with
  | deliver hw hopen | close hw hopen | worker hw hwstep =>
      rw [List.length_set]
      exact hbefore
  | @accept left hspawning =>
      rcases hbefore with hcount | ⟨⟨r, hr⟩, -⟩
      · rw [hspawning, MainPc.left] at hcount
        left
        rw [List.length_append, List.length_singleton, MainPc.left]
        omega
      · cases hspawning.symm.trans hr
  | @refuse left error hspawning =>
      exact .inr ⟨⟨_, rfl⟩, fun hsource => hact hsource error rfl⟩
  | @join order main hjoining hended horder hnext =>
      rcases hbefore with hcount | ⟨⟨r, hr⟩, -⟩
      · left
        rw [hjoining] at hcount
        rcases hnext with ⟨error, -, rfl⟩ | ⟨-, rfl⟩ <;> exact hcount
      · cases hjoining.symm.trans hr
  | main hturn =>
      rcases hbefore with hcount | ⟨⟨r, hr⟩, -⟩
      · left
        rw [(Session.mainStep_moves hturn).left_eq]
        exact hcount
      · rw [hr] at hturn
        cases hturn

theorem Minded.step (h : t.Minded c source) (htied : t.Tied c) (ha : Attended source t a)
    (hmove : Move c t a t') : t'.Minded c source := by
  have hsender : ∀ {act : Sender.Act} {sender : Sender} {read : Nat},
      t.sender.mainStep c.blake3 c.senderConfig c.files act = some sender →
      ({ t with sender := sender, read := read } : Transfer).Minded c source :=
    fun hstep accept totalBytes s hs => (h accept totalBytes s hs).imp_right fun ⟨hr, hmain⟩ =>
      ⟨hr, fun hsource => Sender.mainStep_established hstep (hmain hsource)⟩
  cases hmove with
  | sender hact hstep => exact hsender hstep
  | reads hbody hstep => exact hsender hstep
  | sendWorker hstep =>
      intro accept totalBytes s hs
      have hbefore := h accept totalBytes s hs
      rwa [← Sender.workerStep_main hstep] at hbefore
  | @hello told body hreceiver hbody =>
      obtain rfl := Option.some.inj (htied.spoken.message hbody)
      intro accept totalBytes s hs
      rcases c.onHello_cases told with ⟨heq, -⟩ | ⟨messages, error, heq⟩ <;>
        cases heq.symm.trans hs
  | @offer ios written streamCount body hreceiver hbody hios =>
      obtain ⟨rfl, -⟩ := htied.awaiting _ hreceiver
      obtain rfl := Option.some.inj (htied.spoken.message hbody)
      intro accept totalBytes s hs
      rcases c.onOffer_cases c.senderConfig.streamCount.toUInt32 ios written t.sender.offered with
        ⟨accept', totalBytes', st, heq⟩ | ⟨messages, error, heq⟩
      · cases heq.symm.trans hs
        left
        show 0 + c.senderConfig.streamCount.toUInt32.toNat = _
        rw [UInt8.toNat_toUInt32, Nat.zero_add]
      · cases heq.symm.trans hs
  | lost error hreceiver => exact nofun
  | session hreceiver hact htaken hstep =>
      exact h.session_step hreceiver (fun hsource error heq => ha hsource error (heq ▸ rfl)) hstep rfl
  | deliver hsw hn hreceiver hstep => exact h.session_step hreceiver (by simp) hstep rfl
  | eof hw hshut hall hreceiver hstep => exact h.session_step hreceiver (by simp) hstep rfl
  | cut hreceiver hstep => exact h.session_step hreceiver (by simp) hstep rfl

/-! ## What is due -/

/-- What is bound to happen: each end goes on, what is written arrives, and what is awaited of an end
    that is gone fails. -/
inductive Due (t : Transfer) : TransferAct → Prop
  | next : Due t (.sender .next)
  | reads : Due t .reads
  | sendWorker (i : Nat) : Due t (.sendWorker i .next)
  | session {act : SessionAct} (hact : act.Own ∨ act = .accept) : Due t (.session act)
  | deliver (i : Nat) {n : Nat} (hn : 0 < n) : Due t (.deliver i n)
  | eof (i : Nat) : Due t (.eof i)
  /-- the control connection, with nothing left to read on it -/
  | hungUp (error : Error) (hmain : t.sender.main = .awaitingAccept ∨ t.sender.main = .confirming)
      (hgone : t.receiver.result?.isSome = true) (hread : t.receiver.messages.length ≤ t.read) :
      Due t (.sender (.fail error))
  /-- a stream the receiver has not taken -/
  | untaken {i : Nat} (written : Nat) (hgone : t.receiver.result?.isSome = true)
      (htaken : t.taken ≤ i) : Due t (.sendWorker i (.fail written))

/-- A sender waits only to be called. -/
theorem stepWith_eq (h : source = .acceptor → ∀ left, t.sender.main = .spawning (left + 1) →
      a = .sender .next → t.dialed = true) : t.stepWith c source a = t.step c a := by
  unfold stepWith
  split
  · next hmain => exact if_pos (h rfl _ hmain rfl)
  · rfl

/-- A worker of the sender's that can take a step does, if it does not wait for the peer. -/
theorem step_sendWorker {i : Nat} {sw : SendWorker} {io : SendIo} {y : SendWorkerPc × SendEffect}
    (hsw : t.sender.workers[i]? = some sw)
    (hy : sw.pc.step c.senderConfig.frameSize t.sender io = some y)
    (hreleased : sw.pc = .draining → io = .next → t.released i = true) :
    t.step c (.sendWorker i io) ≠ none := by
  have hworker : (t.sender.workerStep c.senderConfig.frameSize i io).isSome = true := by
    rw [Sender.workerStep, hsw]
    simp only [hy, Option.isSome_some]
  rw [← Option.isSome_iff_ne_none]
  simp only [step, hsw]
  split
  · next hpc => rwa [if_pos (hreleased hpc rfl), Option.isSome_map]
  · rwa [Option.isSome_map]

section Stuck

variable {accept : ManifestAccept} {totalBytes : UInt64} {s : Session}
  (hrunning : t.receiver = .running accept totalBytes s)
  (hstuck : Run.Stuck (stepWith c source) t.Due t)
include hstuck

/-- What is due and no turn of the sender's `run` is not enabled. -/
theorem step_of_stuck (hdue : t.Due a) (hne : a ≠ .sender .next) : t.step c a = none := by
  have hsame : t.stepWith c source a = t.step c a := stepWith_eq fun _ _ _ heq => absurd heq hne
  rw [← hsame]
  exact hstuck a hdue

/-- Nor is a turn of its own, unless it waits to be called. -/
theorem next_of_stuck (h : source = .acceptor → ∀ left, t.sender.main = .spawning (left + 1) →
      t.dialed = true) : t.sender.mainStep c.blake3 c.senderConfig c.files .next = none := by
  have hnone := hstuck (.sender .next) .next
  rw [stepWith_eq fun hsource left hmain _ => h hsource left hmain] at hnone
  rwa [step, Option.map_eq_none_iff] at hnone
  · simp

include hrunning

/-- The receiver has nothing to do by itself. -/
theorem settled_of_stuck (hgrounded : s.Grounded c.blake3) : s.Settled := by
  refine hgrounded.settled (p := c.params totalBytes) fun act hact => ?_
  have hnone := step_of_stuck hstuck (.session (.inl hact)) (by simp)
  have hsession : t.sessionStep c act = none := by
    cases act with
    | deliver i bytes | close i how | accept | refuse error => exact hact.elim
    | _ => exact hnone
  rw [sessionStep, hrunning] at hsession
  exact Option.map_eq_none_iff.1 hsession

/-- It waits for no stream that the sender has established. -/
theorem accepted_of_stuck {left : Nat} (hmain : s.main = .spawning (left + 1)) :
    t.sender.workers.length ≤ s.workers.length := by
  refine Nat.le_of_not_lt fun hlt => ?_
  have hnone := step_of_stuck hstuck (.session (.inr rfl)) (by simp)
  have htaken : t.taken < t.sender.workers.length := by
    rwa [taken, hrunning]
  simp only [step, if_pos htaken, sessionStep, hrunning, Session.step, Session.stepEffect, hmain,
    Option.map_some] at hnone
  cases hnone

/-- What the sender has shut down has arrived. -/
theorem closed_of_shut {i : Nat} {w : Worker} {sw : SendWorker} (hw : s.workers[i]? = some w)
    (hsw : t.sender.workers[i]? = some sw) (hshut : sw.stream.shut = true)
    (hle : sw.stream.delivered ≤ sw.stream.written.length) : w.closed ≠ none := by
  intro hopen
  by_cases hall : sw.stream.delivered = sw.stream.written.length
  · have hnone := step_of_stuck hstuck (.eof i) (by simp)
    simp only [step, hsw, hshut, hall, and_self, if_true, sessionStep, hrunning, Session.step,
      Session.stepEffect, hw, hopen, Option.isSome_none, Bool.false_eq_true, if_false,
      Option.map_some] at hnone
    cases hnone
  · have hnone := step_of_stuck hstuck (.deliver i Nat.one_pos) (by simp)
    have hlt : sw.stream.delivered + 1 ≤ sw.stream.written.length := by omega
    simp only [step, hsw, hlt, if_true, sessionStep, hrunning, Session.step,
      Session.stepEffect, hw, hopen, Option.isSome_none, Bool.false_eq_true, if_false,
      Option.map_some] at hnone
    cases hnone

variable (hsettled : s.Settled)
include hsettled

/-- The receiver is done with a stream that is shut down. -/
theorem ended_of_shut {i : Nat} {w : Worker} {sw : SendWorker} (hw : s.workers[i]? = some w)
    (hsw : t.sender.workers[i]? = some sw) (hshut : sw.stream.shut = true)
    (hle : sw.stream.delivered ≤ sw.stream.written.length) : ∃ r, w.pc = .ended r := by
  rcases hsettled.workers w (List.mem_of_getElem? hw) with hended | hstarved
  · exact hended
  · exact absurd hstarved.1 (closed_of_shut hrunning hstuck hw hsw hshut hle)

variable (hstaffed : t.Staffed c) (hcounted : s.Counted c.senderConfig.streamCount.toNat)
include hstaffed hcounted

/-- **A worker of the sender's has ended.** -/
theorem sender_ended_of_stuck {i : Nat} {sw : SendWorker}
    (hlen : t.sender.workers.length ≤ c.senderConfig.streamCount.toNat)
    (hsw : t.sender.workers[i]? = some sw) : ∃ r, sw.pc = .ended r := by
  by_contra hrun
  have hi := (List.getElem?_eq_some_iff.1 hsw).1
  obtain ⟨hapt, hle⟩ := hstaffed.steady sw (List.mem_of_getElem? hsw)
  obtain ⟨x, hx⟩ := SendWorkerPc.exists_step (s := t.sender) hapt (not_exists.1 hrun)
  -- so it waits for the peer's end of file, on a stream it has shut down
  have hwaits : sw.pc = .draining ∧ t.released i = false := by
    by_contra hne
    refine step_sendWorker hsw hx (fun hpc _ => ?_)
      (step_of_stuck hstuck (.sendWorker i) (by simp))
    by_contra hreleased
    exact hne ⟨hpc, Bool.eq_false_iff.2 hreleased⟩
  have hshut : sw.stream.shut = true := by
    rw [SendWorker.Apt, hwaits.1] at hapt
    exact hapt
  cases hw : s.workers[i]? with
  | some w =>
      obtain ⟨r, hr⟩ := ended_of_shut hrunning hstuck hsettled hw hsw hshut hle
      have hreleased := hwaits.2
      simp only [released, hrunning, hw, hr, WorkerPc.result?, Option.isSome_some] at hreleased
      cases hreleased
  | none =>
      have hi' := List.getElem?_eq_none_iff.1 hw
      rcases hsettled.main with ⟨r, hr⟩ | ⟨left, hleft⟩ | ⟨hjoining, -⟩
      · -- the receiver is gone, and has not taken the stream
        have hfails : sw.pc.step c.senderConfig.frameSize t.sender (.fail 0)
            = some (.ended (.ok ()), .quiet) := by
          rw [hwaits.1]
          rfl
        refine step_sendWorker hsw hfails (by simp)
          (step_of_stuck hstuck (.untaken 0 ?_ ?_) (by simp))
        · rw [hrunning, Receiver.result?, hr]
          rfl
        · rwa [taken, hrunning]
      · have := accepted_of_stuck hrunning hstuck hleft
        omega
      · have := hcounted.joining hjoining
        omega

/-- **Where every stream is shut down the receiver has returned.** -/
theorem receiver_returned_of_stuck
    (hlen : t.sender.workers.length = c.senderConfig.streamCount.toNat)
    (hshut : ∀ sw ∈ t.sender.workers, sw.stream.shut = true) : ∃ r, s.main = .returned r := by
  rcases hsettled.main with hreturned | ⟨left, hleft⟩ | ⟨-, w, hw, hstarved⟩
  · exact hreturned
  · have := accepted_of_stuck hrunning hstuck hleft
    have := hcounted.spawning _ hleft
    omega
  · obtain ⟨i, hi⟩ := List.mem_iff_getElem?.1 hw
    have hsw := List.getElem?_eq_getElem
      (Nat.lt_of_lt_of_le (List.getElem?_eq_some_iff.1 hi).1 (hstaffed.taken_le hrunning))
    have hmem := List.mem_of_getElem? hsw
    obtain ⟨r, hr⟩ := ended_of_shut hrunning hstuck hsettled hi hsw (hshut _ hmem)
      (hstaffed.steady _ hmem).2
    exact absurd hr (hstarved.running r)

/-- A sender that lacks a stream is called, where the receiver minds it. -/
theorem dialed_of_stuck (hminded : t.Minded c source) {left : Nat}
    (hmain : t.sender.main = .spawning (left + 1)) (hsource : source = .acceptor) :
    t.dialed = true := by
  have htaken := hstaffed.taken_le hrunning
  have hplaced : t.sender.workers.length + (left + 1) = c.senderConfig.streamCount.toNat := by
    rcases hstaffed.placed with hsilent | hplaced
    · rcases hsilent.main with ⟨error, heq⟩ | heq | heq | heq | heq <;> cases hmain.symm.trans heq
    · rwa [Sender.Placed, hmain] at hplaced
  have hcount : s.workers.length + s.main.left = c.senderConfig.streamCount.toNat := by
    rcases hminded _ _ _ hrunning with hcount | ⟨-, hestablished⟩
    · exact hcount
    · have := (hestablished hsource).2
      rw [hmain] at this
      cases this
  rcases hsettled.main with ⟨r, hr⟩ | ⟨left', hleft⟩ | ⟨hjoining, -⟩
  · rw [hr, show (MainPc.returned r).left = 0 from rfl] at hcount
    omega
  · have := accepted_of_stuck hrunning hstuck hleft
    simp only [dialed, hrunning, hleft, decide_eq_true_eq]
    omega
  · have := hcounted.joining hjoining
    omega

/-- **Where nothing is due the sender has returned.** -/
theorem returned_of_stuck (hminded : t.Minded c source) (hpaced : t.Paced)
    (hsaid : t.sender.messages ≠ []) (hspoken : t.sender.Spoken c) :
    ∃ r, t.sender.main = .returned r := by
  have hdialed := fun hsource left (hmain : t.sender.main = .spawning (left + 1)) =>
    dialed_of_stuck hrunning hstuck hsettled hstaffed hcounted hminded hmain hsource
  have hnext := next_of_stuck hstuck hdialed
  cases hmain : t.sender.main with
  | opening => exact absurd (hspoken.silent (.inl hmain)) hsaid
  | greeting => exact absurd (hspoken.silent (.inr hmain)) hsaid
  | offering =>
      rw [Sender.mainStep, hmain] at hnext
      cases hnext
  | awaitingAccept =>
      have hread := hpaced.read 0 (by rw [hmain]; rfl)
      have hnone := step_of_stuck hstuck .reads (by simp)
      simp only [step, hread, hrunning, Receiver.messages, List.getElem?_cons_zero,
        Sender.mainStep, hmain, Option.map_some] at hnone
      cases hnone
  | spawning left =>
      rw [Sender.mainStep, hmain] at hnext
      cases left <;> cases hnext
  | joining i =>
      rw [Sender.mainStep, hmain] at hnext
      cases hw : t.sender.workers[i]? with
      | none =>
          simp only [hw] at hnext
          cases hnext
      | some sw =>
          have hlen : t.sender.workers.length = c.senderConfig.streamCount.toNat := by
            rcases hstaffed.placed with hsilent | hplaced
            · rw [hsilent.workers] at hw
              cases hw
            · rw [Sender.Placed, hmain] at hplaced
              exact hplaced.1
          obtain ⟨r, hr⟩ := sender_ended_of_stuck hrunning hstuck hsettled hstaffed hcounted
            (Nat.le_of_eq hlen) hw
          simp only [hw, hr] at hnext
          cases r <;> cases hnext
  | confirming =>
      obtain ⟨hlen, hended⟩ : t.sender.workers.length = c.senderConfig.streamCount.toNat ∧
          ∀ w ∈ t.sender.workers, w.pc = .ended (.ok ()) := by
        rcases hstaffed.placed with hsilent | hplaced
        · rcases hsilent.main with ⟨error, heq⟩ | heq | heq | heq | heq <;>
            cases hmain.symm.trans heq
        · rwa [Sender.Placed, hmain] at hplaced
      obtain ⟨r, hr⟩ := receiver_returned_of_stuck hrunning hstuck hsettled hstaffed hcounted hlen
        fun sw hsw => by
          have hapt := (hstaffed.steady sw hsw).1
          rwa [SendWorker.Apt, hended sw hsw] at hapt
      by_cases hread : t.read < t.receiver.messages.length
      · have hnone := step_of_stuck hstuck .reads (by simp)
        simp only [step, List.getElem?_eq_getElem hread, Sender.mainStep, hmain,
          Option.map_some] at hnone
        cases hnone
      · have hgone : t.receiver.result?.isSome = true := by
          rw [hrunning, Receiver.result?, hr]
          rfl
        have hnone := step_of_stuck hstuck
          (.hungUp panicked (.inr hmain) hgone (Nat.not_lt.1 hread)) (by simp)
        simp only [step, Sender.mainStep, hmain, Option.map_some] at hnone
        cases hnone
  | returned r => exact ⟨r, rfl⟩

end Stuck

/-! ## Any run -/

theorem runs_of_runsWith {as : List TransferAct} (h : t.runsWith c source as = some t') :
    t.runs c as = some t' :=
  Run.runs_mono (fun _ _ _ => step_of_stepWith) h

theorem staffed_of_runs {as : List TransferAct} (hrun : init.runs c as = some t) : t.Staffed c :=
  (Run.invariant (I := fun t => t.Tied c ∧ t.Staffed c)
    (fun _ _ _ h hstep => ⟨h.1.step (step_moves hstep), h.2.step h.1 (step_moves hstep)⟩)
    ⟨tied_init c, staffed_init c⟩ hrun).2

theorem minded_of_runs {as : List TransferAct} (hrun : init.runsWith c source as = some t)
    (hattended : Run.Meets (stepWith c source) (Attended source) init as) : t.Minded c source :=
  (Run.invariant_of (I := fun t => t.Tied c ∧ t.Minded c source)
    (fun _ _ _ h ha hstep =>
      have hmove := step_moves (step_of_stepWith hstep)
      ⟨h.1.step hmove, h.2.step h.1 ha hmove⟩)
    ⟨tied_init c, nofun⟩ hattended hrun).2

/-- A spoiled transfer has its answer. -/
theorem Spoiled.serving (h : t.Spoiled c) (hstaffed : t.Staffed c) : t.sender.main.Serving := by
  obtain ⟨accept, totalBytes, s, hrunning, hspoiled⟩ := h
  rcases hstaffed.placed with hsilent | hplaced
  · have htaken := hstaffed.taken_le hrunning
    rw [hsilent.workers] at htaken
    have hnone := List.eq_nil_of_length_eq_zero (Nat.le_zero.1 htaken)
    have hpos := hstaffed.running _ _ _ hrunning
    rcases hspoiled with ⟨w, hw, -⟩ | ⟨hlen, -⟩
    · rw [hnone] at hw
      cases hw
    · rw [hnone, List.length_nil] at hlen
      omega
  · unfold Sender.Placed at hplaced
    split at hplaced
    all_goals first
      | exact hplaced.elim
      | next hmain => rw [hmain]; trivial

/-- **A spoiled transfer comes to an end**, whatever its calls do. -/
theorem Spoiled.halts (h : t.Spoiled c) (htied : t.Tied c) (hstaffed : t.Staffed c) :
    Run.Halts (stepWith c source) (fun a => a.busy = true) t := by
  refine Run.halts_of_measure (Run.lighter_wellFounded less_wellFounded)
    (toDo c.senderConfig.frameSize.toNat) (I := fun t => t.Tied c ∧ t.Staffed c ∧ t.Spoiled c)
    (fun t a t' hI _ hstep => ?_) (fun t a t' hI hbusy hstep => ?_) ⟨htied, hstaffed, h⟩
  · have hmove := step_moves (step_of_stepWith hstep)
    exact ⟨hI.1.step hmove, hI.2.1.step hI.1 hmove, hI.2.2.step hI.1 hmove⟩
  · obtain ⟨-, hstaffed, hspoiled⟩ := hI
    have hserving := hspoiled.serving hstaffed
    obtain ⟨accept, totalBytes, s, hrunning, -⟩ := hspoiled
    refine lighter hrunning hserving (fun sw hsw hcuts => ?_) hbusy
      (step_moves (step_of_stepWith hstep))
    obtain ⟨hapt, -⟩ := hstaffed.steady sw hsw
    obtain ⟨item, n, hpc | hpc⟩ := hcuts
    · rw [SendWorker.Apt, hpc] at hapt
      exact hapt.1
    · rw [SendWorker.Apt, hpc] at hapt
      exact hapt.1

/-- **Agreement on success.** In every run of a transfer: where the sender has returned `Ok`, a step
    before wrote the receiver's `Complete`, and just before it the receiver was `Confirming`. From a
    state whose receiver is spoiled, the sender returns nothing but errors, and the steps of the two
    ends cannot go on for ever; and if the run was attended throughout, the sender has returned one
    where nothing is due any more. -/
theorem agreement_on_success {as : List TransferAct}
    (hrun : Transfer.init.runsWith c source as = some t) :
    (∀ n, t.sender.main = .returned (.ok n) →
      ∃ pre a post u u', as = pre ++ a :: post ∧ Transfer.init.runsWith c source pre = some u ∧
        u.stepWith c source a = some u' ∧ (∃ m, .complete m ∈ u'.receiver.messages) ∧
        ∃ accept totalBytes s, u.receiver = .running accept totalBytes s ∧ u.Confirming c s) ∧
    (t.Spoiled c → ∀ bs t', t.runsWith c source bs = some t' →
      (∀ r, t'.sender.main = .returned r → ∃ e, r = .error e) ∧
      Run.Halts (stepWith c source) (fun a => a.busy = true) t' ∧
      (Run.Meets (stepWith c source) (Attended source) Transfer.init (as ++ bs) →
        Run.Stuck (stepWith c source) t'.Due t' → ∃ e, t'.sender.main = .returned (.error e))) := by
  refine ⟨fun n hn => ?_, fun hspoiled bs t' hbs => ?_⟩
  · obtain ⟨pre, a, post, u, u', has, hpre, hstep, hbefore, hafter⟩ :=
      Run.exists_turn (P := fun t : Transfer => ∃ m, .complete m ∈ t.receiver.messages) hrun
        (by simp [init, Receiver.messages]) ((tied_of_runs (runs_of_runsWith hrun)).confirmed n hn)
    exact ⟨pre, a, post, u, u', has, hpre, hstep, hafter,
      (tied_of_runs (runs_of_runsWith hpre)).confirming (step_moves (step_of_stepWith hstep)) hbefore
        hafter⟩
  · have hall : init.runsWith c source (as ++ bs) = some t' := by
      rw [runsWith] at hrun hbs ⊢
      rw [Run.runs_append, hrun]
      exact hbs
    have htied := tied_of_runs (runs_of_runsWith hall)
    have hstaffed := staffed_of_runs (runs_of_runsWith hall)
    have hspoiled' := hspoiled.of_runs (tied_of_runs (runs_of_runsWith hrun)) (runs_of_runsWith hbs)
    have herrors : ∀ r, t'.sender.main = .returned r → ∃ e, r = .error e := by
      intro r hr
      cases r with
      | error e => exact ⟨e, rfl⟩
      | ok n => exact absurd hr (hspoiled'.not_ok htied n)
    refine ⟨herrors, hspoiled'.halts htied hstaffed, fun hattended hstuck => ?_⟩
    obtain ⟨accept, totalBytes, s, hrunning, -⟩ := hspoiled'
    obtain ⟨hsaid, entries, st, acts, hoffer, -, hruns⟩ := htied.running _ _ _ hrunning
    obtain ⟨-, hcounted, -⟩ := htied.session_facts hrunning
    have hsettled := settled_of_stuck hrunning hstuck
      (Session.grounded_of_runs (p := c.params totalBytes) hoffer hruns)
    obtain ⟨r, hr⟩ := returned_of_stuck hrunning hstuck hsettled hstaffed hcounted
      (minded_of_runs hall hattended) (paced_of_runs (runs_of_runsWith hall)) hsaid htied.spoken
    obtain ⟨e, rfl⟩ := herrors r hr
    exact ⟨e, hr⟩

theorem exists_runsWith (c : Parties) (source : StreamSource) (as : List TransferAct)
    (check : Transfer → Bool) (h : (Transfer.init.runsWith c source as).any check = true) :
    ∃ t, Transfer.init.runsWith c source as = some t ∧ check t = true :=
  (Option.any_eq_true _ _).1 h

/-- A sender that calls the receiver needs nobody's care. -/
theorem attended_dialer (t : Transfer) (as : List TransferAct) :
    Run.Meets (stepWith c .dialer) (Attended .dialer) t as :=
  Run.Meets.of_invariant (I := fun _ => True) (fun _ _ _ _ _ => trivial)
    (fun _ _ _ => by simp [Attended]) trivial as

end Transfer

/-- A worker of the receiver's has ended in an error. -/
def Session.broken (s : Session) : Bool :=
  (firstError s.workers).isSome

theorem Session.spoiled_of_broken {s : Session} (h : s.broken = true) (n : Nat) : s.Spoiled n := by
  obtain ⟨e, he⟩ := Option.isSome_iff_exists.1 h
  obtain ⟨w, hw, hfound⟩ := List.exists_of_findSome?_eq_some he
  split at hfound
  · next e' hpc => exact .inl ⟨w, hw, e', hpc⟩
  · cases hfound

def Receiver.broken : Receiver → Bool
  | .running _ _ s => s.broken
  | _ => false

theorem Transfer.spoiled_of_broken (c : Parties) {t : Transfer} (h : t.receiver.broken = true) :
    t.Spoiled c := by
  unfold Receiver.broken at h
  split at h
  · next accept totalBytes s hreceiver =>
      exact ⟨accept, totalBytes, s, hreceiver, Session.spoiled_of_broken h _⟩
  · cases h

/-- The file of one byte over two streams, with room for the answer. -/
def twoStreamParties : Parties :=
  { oneByteParties with senderConfig := { plainConfig with streamCount := 2 } }

/-- The first stream is cut as soon as both ends have it. -/
def firstStreamCut : List TransferAct :=
  [.sender (.opens [{ opens := true, stats := true, maps := true }]), .sender .next, .hello true,
    .sender .next, .offer [allCallsSucceed] true, .reads, .sender .next, .session .accept,
    .cut 0 .failed, .session (.worker 0 .next)]

/-- One byte sent and confirmed; and a stream cut between two ends of which the sender calls. -/
theorem agreement_on_success_bothEnds :
    (∃ t n, Transfer.init.runsWith oneByteParties .dialer oneByteTransferred = some t ∧
      t.sender.main = .returned (.ok n) ∧
      ∃ pre a post u u', oneByteTransferred = pre ++ a :: post ∧
        Transfer.init.runsWith oneByteParties .dialer pre = some u ∧
        u.stepWith oneByteParties .dialer a = some u' ∧
        (∃ m, .complete m ∈ u'.receiver.messages) ∧
        ∃ accept totalBytes s, u.receiver = .running accept totalBytes s ∧
          u.Confirming oneByteParties s) ∧
    ∃ t, Transfer.init.runsWith twoStreamParties .dialer firstStreamCut = some t ∧
      t.Spoiled twoStreamParties ∧ ∀ bs t', t.runsWith twoStreamParties .dialer bs = some t' →
        (∀ r, t'.sender.main = .returned r → ∃ e, r = .error e) ∧
        Run.Halts (Transfer.stepWith twoStreamParties .dialer) (fun a => a.busy = true) t' ∧
        (Run.Stuck (Transfer.stepWith twoStreamParties .dialer) t'.Due t' →
          ∃ e, t'.sender.main = .returned (.error e)) := by
  constructor
  · obtain ⟨t, ht, hok⟩ := Transfer.exists_runsWith oneByteParties .dialer oneByteTransferred
      (fun t => t.sender.succeeded) (by decide +kernel)
    unfold Sender.succeeded at hok
    split at hok
    · next n hn => exact ⟨t, n, ht, hn, (Transfer.agreement_on_success ht).1 n hn⟩
    · cases hok
  · obtain ⟨t, ht, hbroken⟩ := Transfer.exists_runsWith twoStreamParties .dialer firstStreamCut
      (fun t => t.receiver.broken) (by decide +kernel)
    have hspoiled := Transfer.spoiled_of_broken twoStreamParties hbroken
    refine ⟨t, ht, hspoiled, fun bs t' hbs => ?_⟩
    obtain ⟨herrors, hhalts, hreturns⟩ := (Transfer.agreement_on_success ht).2 hspoiled bs t' hbs
    exact ⟨herrors, hhalts, hreturns (Transfer.attended_dialer _ _)⟩

/-! ## A sender that nobody calls -/

/-- The sender waits to be called for a stream, its workers have ended, and the receiver has returned
    with every stream it took ended. -/
structure Transfer.Parked (t : Transfer) : Prop where
  sender : ∃ left, t.sender.main = .spawning (left + 1)
  workers : ∀ sw ∈ t.sender.workers, ∃ r, sw.pc = .ended r
  receiver : ∃ accept totalBytes s, t.receiver = .running accept totalBytes s ∧ s.Over ∧
    ∀ w ∈ s.workers, w.closed ≠ none

/-- A session that is over takes no step, but for what arrives. -/
theorem Session.Over.stuck {p : Params} {s s' : Session} {a : SessionAct} (h : s.Over)
    (hclosed : ∀ w ∈ s.workers, w.closed ≠ none) : s.step p a ≠ some s' := by
  intro hstep
  obtain ⟨r, hr⟩ := h.main
  have hsettled : s.Settled := ⟨fun w hw => .inl (h.workers w hw), .inl h.main⟩
  have hown := hsettled.stuck p
  obtain ⟨e, heff, -⟩ := step_moves hstep
  cases stepEffect_cases heff with
  | deliver hw hopen | close hw hopen => exact hclosed _ (List.mem_of_getElem? hw) hopen
  | accept hmain | refuse hmain => cases hmain.symm.trans hr
  | @worker i io w w' e hw hwstep => cases (hown (.worker i io) trivial).symm.trans hstep
  | @join order main hmain hended horder hnext =>
      cases (hown (.join order) trivial).symm.trans hstep
  | @main io main e hturn => cases (hown (.main io) trivial).symm.trans hstep

/-- **A parked sender waits for ever**: nothing can happen but a failure of its own call. -/
theorem Transfer.Parked.only_fails {c : Parties} {t t' : Transfer} {a : TransferAct} (h : t.Parked)
    (hstep : t.stepWith c .acceptor a = some t') : ∃ error, a = .sender (.fail error) := by
  obtain ⟨left, hmain⟩ := h.sender
  obtain ⟨accept, totalBytes, s, hreceiver, hover, hclosed⟩ := h.receiver
  obtain ⟨r, hr⟩ := hover.main
  have hnot : ∀ {main : SenderPc}, t.sender.main = main → main = .spawning (left + 1) :=
    fun heq => heq.symm.trans hmain
  cases step_moves (step_of_stepWith hstep) with
  | sender hact hturn =>
      cases Sender.mainStep_moves hturn with
      | fails hne => exact ⟨_, rfl⟩
      | spawns hspawning =>
          -- nobody calls
          have hdialed : t.dialed = false := by
            rw [dialed, hreceiver]
            simp only [hr]
          simp only [stepWith, hmain, hdialed, Bool.false_eq_true, if_false] at hstep
          cases hstep
      | opened heq | notOpened heq | greets heq | offers heq | spawned heq | joins heq
      | workerFailed heq | joined heq => cases hnot heq
      | accepted heq | refused heq | confirms heq => cases hnot heq
  | reads hbody hturn =>
      cases Sender.mainStep_moves hturn with
      | accepted heq | refused heq | confirms heq => cases hnot heq
  | @sendWorker i io sender hwstep =>
      obtain ⟨sw, pc, e, hsw, hpc, -⟩ := Sender.workerStep_ok hwstep
      obtain ⟨r, hended⟩ := h.workers sw (List.mem_of_getElem? hsw)
      rw [hended] at hpc
      cases io <;> cases hpc
  | hello told heq hbody => cases hreceiver.symm.trans heq
  | offer written heq hbody hios => cases hreceiver.symm.trans heq
  | lost error heq => rcases heq with heq | ⟨n, heq⟩ <;> cases hreceiver.symm.trans heq
  | session heq hact htaken hsession =>
      cases hreceiver.symm.trans heq
      exact absurd hsession (hover.stuck hclosed)
  | deliver hsw hn heq hsession =>
      cases hreceiver.symm.trans heq
      exact absurd hsession (hover.stuck hclosed)
  | eof hw hshut hall heq hsession =>
      cases hreceiver.symm.trans heq
      exact absurd hsession (hover.stuck hclosed)
  | cut heq hsession =>
      cases hreceiver.symm.trans heq
      exact absurd hsession (hover.stuck hclosed)

/-- Nothing is due where the sender is parked. -/
theorem Transfer.Parked.stuck {c : Parties} {t : Transfer} (h : t.Parked) :
    Run.Stuck (stepWith c .acceptor) t.Due t := by
  intro a hdue
  rw [Option.eq_none_iff_forall_ne_some]
  intro t' hstep
  obtain ⟨error, rfl⟩ := h.only_fails hstep
  obtain ⟨left, hmain⟩ := h.sender
  cases hdue with
  | hungUp _ hreads hgone hread =>
      rcases hreads with heq | heq <;> cases hmain.symm.trans heq

/-- A worker that has ended. -/
def SendWorkerPc.hasEnded : SendWorkerPc → Bool
  | .ended _ => true
  | _ => false

def Transfer.isParked (t : Transfer) : Bool :=
  match t.sender.main, t.receiver with
  | .spawning (_ + 1), .running _ _ s =>
      t.sender.workers.all (fun sw => sw.pc.hasEnded) && s.main.hasReturned &&
        s.workers.all fun w => w.pc.result?.isSome && w.closed.isSome
  | _, _ => false

theorem Transfer.parked_of_isParked {t : Transfer} (h : t.isParked = true) : t.Parked := by
  unfold isParked at h
  split at h
  · next left accept totalBytes s hmain hreceiver =>
      simp only [Bool.and_eq_true, List.all_eq_true] at h
      obtain ⟨⟨hsenders, hreturned⟩, hworkers⟩ := h
      refine ⟨⟨left, hmain⟩, fun sw hsw => ?_, accept, totalBytes, s, hreceiver,
        ⟨MainPc.exists_of_hasReturned hreturned, fun w hw => ?_⟩, fun w hw hopen => ?_⟩
      · have hended := hsenders sw hsw
        unfold SendWorkerPc.hasEnded at hended
        split at hended
        · next r hpc => exact ⟨r, hpc⟩
        · cases hended
      · have hresult := (hworkers w hw).1
        unfold WorkerPc.result? at hresult
        split at hresult
        · next r hpc => exact ⟨r, hpc⟩
        · cases hresult
      · have hclosed := (hworkers w hw).2
        rw [hopen] at hclosed
        cases hclosed
  · cases h

/-- The first stream is cut, the sender's worker fails over it, and the receiver cannot connect for
    the second. -/
def cutBetweenStreams : List TransferAct :=
  firstStreamCut ++ [.sendWorker 0 .next, .sendWorker 0 (.fail 0),
    .session (.refuse (.io "connecting"))]

/-- A worker of the receiver's has ended in an error, nothing is due, and the sender has not
    returned: nothing can happen to it but a failure of its own call. -/
theorem spoiled_sender_waits_for_ever :
    ∃ t, Transfer.init.runsWith twoStreamParties .acceptor cutBetweenStreams = some t ∧
      t.Spoiled twoStreamParties ∧
      Run.Stuck (Transfer.stepWith twoStreamParties .acceptor) t.Due t ∧
      (∀ r, t.sender.main ≠ .returned r) ∧
      ∀ a t', t.stepWith twoStreamParties .acceptor a = some t' →
        ∃ error, a = .sender (.fail error) := by
  obtain ⟨t, ht, hcheck⟩ := Transfer.exists_runsWith twoStreamParties .acceptor cutBetweenStreams
    (fun t => t.isParked && t.receiver.broken) (by decide +kernel)
  rw [Bool.and_eq_true] at hcheck
  have hparked := Transfer.parked_of_isParked hcheck.1
  refine ⟨t, ht, Transfer.spoiled_of_broken _ hcheck.2, hparked.stuck, fun r hr => ?_,
    fun a t' hstep => hparked.only_fails hstep⟩
  obtain ⟨left, hmain⟩ := hparked.sender
  cases hmain.symm.trans hr

end AetherLink
