import AetherLink.Proofs.Sharing

set_option autoImplicit false

/-! # Honest delivery

From the moment the receiver has written `Accept` the transfer can do nothing but let the sender read
it and build its queue, which holds the missing chunks (`Transfer.Agreed.step`); from there on the
queue is shared out. Once the receiving workers have ended, every file is there and the receiver's
`run` can only go on to `Complete` (`Transfer.Sharing.confirms`). -/

namespace AetherLink

open Bytes Storage

/-! ## From the answer on -/

/-- The transfer as it is once the receiver has written `Accept` over these bitmaps, and before the
    sender has read it. -/
structure Transfer.Agreed (c : Parties) (offered : List (SourceFile × FileEntry))
    (bitmaps : List ChunkBitmap) (t : Transfer) (s : Session) : Prop where
  offers : c.Offers offered
  ready : s.Ready c offered bitmaps
  offered_eq : t.sender.offered = offered
  awaiting : t.sender.main = .awaitingAccept
  idle : t.sender.workers = []
  unread : t.read = 0
  receiver : ∃ totalBytes, t.receiver = .running (acceptOf offered bitmaps) totalBytes s

/-- The queue has the missing chunks, each once. -/
theorem QueueFor.count_eq {offered : List (SourceFile × FileEntry)} {bitmaps : List ChunkBitmap}
    {queue : List WorkItem} {bytes : UInt64}
    (h : QueueFor offered (fun i => bitmaps[i]?) queue bytes)
    (hlen : bitmaps.length = offered.length)
    (hcount : ∀ (i : Nat) x b, offered[i]? = some x → bitmaps[i]? = some b →
      b.count = x.1.layout.count) (item : WorkItem) :
    queue.count item = (missing bitmaps item).toNat := by
  have hnodup : queue.Nodup := by
    refine h.ordered.imp fun {a b} hab heq => ?_
    subst heq
    rcases hab with hlt | ⟨-, hlt⟩
    · exact Nat.lt_irrefl _ hlt
    · exact Nat.lt_irrefl _ hlt
  have hmem : item ∈ queue ↔ missing bitmaps item = true := by
    rw [h.mem_iff, missing_iff]
    constructor
    · rintro ⟨x, b, hx, hb, hlt, hclear⟩
      have hc := hcount _ x b hx hb
      rw [ChunkBitmap.get_eq (by omega), Except.ok.injEq] at hclear
      exact ⟨b, hb, by omega, hclear⟩
    · rintro ⟨b, hb, hlt, hclear⟩
      have hi : item.fileIndex < offered.length := hlen ▸ (List.getElem?_eq_some_iff.1 hb).1
      have hx := List.getElem?_eq_getElem hi
      have hc := hcount _ _ b hx hb
      exact ⟨_, b, hx, hb, by omega, by rw [ChunkBitmap.get_eq hlt, hclear]⟩
  rw [hnodup.count]
  cases hm : missing bitmaps item with
  | true => rw [if_pos (hmem.2 hm), Bool.toNat_true]
  | false =>
      rw [if_neg fun hin => ?_, Bool.toNat_false]
      rw [hmem.1 hin] at hm
      cases hm

/-- **The first step is the sender's reading of the answer**, over which the queue is built. -/
theorem Transfer.Agreed.step {c : Parties} {offered : List (SourceFile × FileEntry)}
    {bitmaps : List ChunkBitmap} {t t' : Transfer} {s : Session}
    (h : t.Agreed c offered bitmaps s) (hstreams : 0 < c.senderConfig.streamCount.toNat)
    {a : TransferAct} (ha : a.honest = true) (hmove : Transfer.Move c t a t') :
    t'.Sharing c offered bitmaps s s [] := by
  obtain ⟨totalBytes₀, hrunning⟩ := h.receiver
  have hnone : ∀ {i : Nat} {sw : SendWorker}, t.sender.workers[i]? ≠ some sw := by
    intro i sw hsw
    rw [h.idle] at hsw
    cases hsw
  cases hmove with
  | @sender act sender hact hstep =>
      cases act with
      | reads body => exact absurd rfl (hact body)
      | fail error => cases ha
      | _ => simp [Sender.mainStep, h.awaiting] at hstep
  | @reads body sender hbody hstep =>
      rw [hrunning, h.unread] at hbody
      obtain rfl : Body.accept (acceptOf offered bitmaps) = body := Option.some.inj hbody
      have hfit : ∀ (i : Nat) x b, offered[i]? = some x → bitmaps[i]? = some b →
          b.Wf ∧ b.count = x.1.layout.count := by
        intro i x b hx hb
        obtain ⟨b', st, hb', hst, hserves, rfl⟩ := h.ready.file h.offers hx
        obtain rfl := Option.some.inj (hb.symm.trans hb')
        obtain ⟨f, -, hoff⟩ := h.offers.of_offered hx
        obtain ⟨hwf, hcount⟩ := h.ready.sized _ st hst
        exact ⟨hwf, hcount.trans (congrArg ChunkLayout.count (hoff.layout_eq hserves))⟩
      obtain ⟨-, queue, bytes, hbuilt, hqueue⟩ :=
        buildQueue_acceptOf h.offers h.ready.length_eq hfit
      simp only [Sender.mainStep, h.awaiting, Sender.onReply, h.offered_eq, hbuilt,
        Option.some.injEq] at hstep
      subst hstep
      refine ⟨rfl, ⟨_, _, hrunning⟩, trivial, ?_, ?_, ?_, ?_, ?_, ?_,
        h.ready.receives h.offers⟩
      · show t.sender.workers.length + _ = _
        rw [h.idle]
        exact Nat.zero_add _
      · rw [h.ready.workers]
        exact Nat.zero_le _
      · show 0 = t.sender.workers.length
        rw [h.idle]
        rfl
      · intro i l sw hl
        cases hl
      · intro item
        show 0 + queue.count item = _
        rw [Nat.zero_add]
        exact hqueue.count_eq h.ready.length_eq (fun i x b hx hb => (hfit i x b hx hb).2) item
      · intro sw hsw
        obtain ⟨i, hi⟩ := List.mem_iff_getElem?.1 hsw
        exact absurd hi hnone
  | @sendWorker i io sender hstep =>
      obtain ⟨sw, pc, e, hsw, -⟩ := Sender.workerStep_ok hstep
      exact absurd hsw hnone
  | hello told hreceiver hbody =>
      rw [hrunning] at hreceiver
      cases hreceiver
  | offer written hreceiver hbody hios =>
      rw [hrunning] at hreceiver
      cases hreceiver
  | lost error hreceiver => cases ha
  | @session act accept totalBytes s₁ s' hreceiver hact htaken hstep =>
      rw [hrunning] at hreceiver
      cases hreceiver
      have hidle := h.ready.workers
      have hmain := h.ready.main
      obtain ⟨left, hleft⟩ := Nat.exists_eq_succ_of_ne_zero (Nat.pos_iff_ne_zero.1 hstreams)
      rw [hleft] at hmain
      cases act with
      | accept =>
          have := htaken rfl
          rw [h.idle] at this
          exact absurd this (Nat.not_lt_zero _)
      | refuse error => cases ha
      | main io =>
          cases io <;> simp [Session.step, Session.stepEffect, hmain, Session.mainStep] at hstep
      | _ => simp [Session.step, Session.stepEffect, hidle, hmain] at hstep
  | deliver hsw hn hreceiver hstep => exact absurd hsw hnone
  | eof hsw hshut hall hreceiver hstep => exact absurd hsw hnone
  | cut hreceiver hstep => cases ha

/-! ## The start is what the handshake leads to -/

/-- Before it has read the answer the sender has no stream. -/
def Transfer.Early (t : Transfer) : Prop :=
  ¬ t.sender.main.Serving → t.sender.workers = [] ∧ t.read = 0

/-- A step of `run` that does not take it past the answer. -/
theorem Sender.mainStep_early {c : Parties} {s s' : Sender} {act : Act}
    (h : s.mainStep c.blake3 c.senderConfig c.files act = some s') (hearly : ¬ s'.main.Serving) :
    ¬ s.main.Serving ∧ s'.workers = s.workers ∧ ∀ body, act ≠ .reads body := by
  cases mainStep_moves h with
  | opened hmain hlen hoffered =>
      rw [hmain]
      exact ⟨id, rfl, by simp⟩
  | greets hmain | offers hmain =>
      rw [hmain]
      exact ⟨id, rfl, by simp⟩
  | _ => exact absurd trivial hearly

theorem Transfer.Early.step {c : Parties} {t t' : Transfer} {a : TransferAct} (h : t.Early)
    (hmove : Transfer.Move c t a t') : t'.Early := by
  have hnone : ¬ t.sender.main.Serving → ∀ {i : Nat} {sw : SendWorker},
      t.sender.workers[i]? ≠ some sw := by
    intro hearly i sw hsw
    rw [(h hearly).1] at hsw
    cases hsw
  cases hmove with
  | sender hact hstep =>
      intro hearly
      obtain ⟨hbefore, hworkers, -⟩ := Sender.mainStep_early hstep hearly
      exact ⟨hworkers.trans (h hbefore).1, (h hbefore).2⟩
  | reads hbody hstep =>
      intro hearly
      exact absurd rfl ((Sender.mainStep_early hstep hearly).2.2 _)
  | sendWorker hstep =>
      obtain ⟨sw, pc, e, hsw, -, rfl⟩ := Sender.workerStep_ok hstep
      intro hearly
      exact absurd hsw (hnone hearly)
  | deliver hsw hn hreceiver hstep =>
      intro hearly
      exact absurd hsw (hnone hearly)
  | _ => exact h

theorem Transfer.early_of_runs {c : Parties} {t : Transfer} {as : List TransferAct}
    (hrun : Transfer.init.runs c as = some t) : t.Early :=
  Run.invariant (fun _ _ _ h hstep => h.step (step_moves hstep)) (fun _ => ⟨rfl, rfl⟩) hrun

/-- **What the handshake leads to.** Where the receiver has accepted the offer, the transfer is
    `Agreed` over the bitmaps its files start with, if the names of the files are apart from their
    records and the bitmaps are sized to the files and true of the sinks. -/
theorem Transfer.agreed_of_offer {c : Parties} {t t' : Transfer} {as : List TransferAct}
    (hrun : Transfer.init.runs c as = some t) (hmain : t.sender.main = .awaitingAccept)
    {ios : List EntryIo} (hstep : t.step c (.offer ios true) = some t') {accept : ManifestAccept}
    {totalBytes : UInt64} {s : Session} (hreceiver : t'.receiver = .running accept totalBytes s)
    (hapart : NamesApart s.env.files) (hsized : s.env.files.Sized)
    (hheld : ∀ (i : Nat) x st k, t.sender.offered[i]? = some x →
      s.env.files.lookup x.2.fileId = some st → st.bitmap.has k = true →
      slice (s.env.disk.data st.sink.ino) (st.layout.start k) (st.layout.len k)
        = slice x.1.map (st.layout.start k) (st.layout.len k)) :
    ∃ bitmaps, t'.Agreed c t.sender.offered bitmaps s := by
  have htied := tied_of_runs hrun
  obtain ⟨hidle, hunread⟩ := early_of_runs hrun (by simp [hmain, SenderPc.Serving])
  cases step_moves hstep with
  | @offer ios written streamCount body hbefore hbody hios =>
      obtain ⟨rfl, hne⟩ := htied.awaiting _ hbefore
      obtain rfl := Option.some.inj (htied.spoken.message hbody)
      have hoffers := htied.spoken.offered (Or.inr hne)
      simp only [Receiver.onOffer, Parties.offerBody] at hreceiver
      split at hreceiver
      · cases hreceiver
      · next st hst =>
          simp only [if_true, Receiver.running.injEq] at hreceiver
          obtain ⟨rfl, rfl, rfl⟩ := hreceiver
          have hentries : ((t.sender.offered.map Prod.snd).zip ios).map Prod.fst
              = t.sender.offered.map Prod.snd := by
            refine List.map_fst_zip ?_
            rw [List.length_map, hoffers.length_eq, hios]
          obtain ⟨bitmaps, hlen, haccept, hown⟩ := answer_eq_acceptOf hst hentries
          have haccepted := accepted_offerLoop hst
          have hids : (((t.sender.offered.map Prod.snd).zip ios).map fun x => x.1.fileId).Nodup := by
            have hmap := congrArg (List.map fun y : FileEntry => y.fileId) hentries
            rw [List.map_map, List.map_map] at hmap
            exact hmap ▸ hoffers.nodup_ids
          refine ⟨bitmaps, hoffers, ⟨?_, rfl, hlen, fun i x b hx hb => ?_, fun id fs hfs => ?_,
            hsized, haccepted.named, fun id id' fs fs' hfs hfs' => haccepted.eq_of_path_eq hfs hfs',
            hapart, hheld⟩, rfl, hmain, hidle, hunread, st.totalBytes, ?_⟩
          · simp only [Session.start, UInt8.toNat_toUInt32]
          · obtain ⟨fs, hfs, hbitmap⟩ := hown hoffers.nodup_ids i x b hx hb
            have hmem : x.2 ∈ ((t.sender.offered.map Prod.snd).zip ios).map Prod.fst := by
              rw [hentries]
              exact List.mem_map_of_mem (List.mem_of_getElem? hx)
            obtain ⟨y, hy, hyx⟩ := List.mem_map.1 hmem
            obtain ⟨fs', hfs', hserves⟩ := haccepted.kept hids y hy
            rw [hyx] at hfs' hserves
            obtain rfl := Option.some.inj (hfs.symm.trans hfs')
            exact ⟨fs, hfs, hserves, hbitmap⟩
          · obtain ⟨y, hy, hid, -⟩ := haccepted.made id fs hfs
            have hmem : y.1 ∈ t.sender.offered.map Prod.snd := hentries ▸ List.mem_map_of_mem hy
            obtain ⟨x, hx, hxy⟩ := List.mem_map.1 hmem
            exact ⟨x, hx, hxy ▸ hid⟩
          · rw [haccept]
            simp only [Receiver.onOffer, Parties.offerBody, hst, if_true]

/-! ## On to `Complete` -/

/-- How many turns `run` has still to take once its workers have ended, over this many files. -/
def MainPc.turns (files : Nat) : MainPc → Nat
  | .spawning _ => 4 * files + 4
  | .joining => 4 * files + 3
  | .checking todo => 4 * todo.length + 2
  | .syncing _ todo => 4 * todo.length + 5
  | .dropping _ todo => 4 * todo.length + 4
  | .droppingTmp _ todo => 4 * todo.length + 3
  | .completing => 1
  | _ => 0

/-- `run` can take a step, in which no call fails, and be a turn nearer to its return. -/
def Session.Advances (p : Params) (s : Session) : Prop :=
  ∃ act s', ((∃ io, act = .main io) ∨ ∃ order, act = .join order) ∧
    (TransferAct.session act).honest = true ∧ s.step p act = some s' ∧ s'.workers = s.workers ∧
    s'.main.turns s'.env.files.keys.length < s.main.turns s.env.files.keys.length

theorem Session.advances_of_mainStep {p : Params} {s : Session} {main : MainPc} {e : Effect}
    (h : mainStep p s.env s.main .next = some (main, e))
    (hless : main.turns (s.env.apply e).files.keys.length < s.main.turns s.env.files.keys.length) :
    s.Advances p := by
  refine ⟨.main .next, { s with env := s.env.apply e, main := main }, Or.inl ⟨_, rfl⟩, rfl, ?_, rfl,
    hless⟩
  simp only [step, stepEffect, h, Option.map_some]

namespace Transfer

/-- A step of the session that is no arrival. -/
theorem step_session {c : Parties} {t : Transfer} {accept : ManifestAccept} {totalBytes : UInt64}
    {s s' : Session} (hreceiver : t.receiver = .running accept totalBytes s) {act : SessionAct}
    (hact : (∃ io, act = .main io) ∨ ∃ order, act = .join order)
    (hstep : s.step (c.params totalBytes) act = some s') :
    t.step c (.session act) = some { t with receiver := .running accept totalBytes s' } := by
  have hsession : t.sessionStep c act
      = some { t with receiver := .running accept totalBytes s' } := by
    rw [sessionStep, hreceiver]
    simp only [hstep, Option.map_some]
  rcases hact with ⟨io, rfl⟩ | ⟨order, rfl⟩ <;> exact hsession

namespace Sharing

variable {c : Parties} {offered : List (SourceFile × FileEntry)} {bitmaps : List ChunkBitmap}
  {s₀ s : Session} {t : Transfer} {lanes : List Lane}
  (hready : s₀.Ready c offered bitmaps) (hoffers : c.Offers offered)
  (hstreams : 0 < c.senderConfig.streamCount.toNat)
include hready hoffers hstreams

/-- **`run` can take a turn** once every stream is read to its end. -/
theorem advances (h : t.Sharing c offered bitmaps s₀ s lanes)
    (hall : s.workers.length = c.senderConfig.streamCount.toNat)
    (hended : ∀ w ∈ s.workers, ∃ r, w.pc = .ended r) (hrun : ∀ m, s.main ≠ .returned (.ok m))
    (totalBytes : UInt64) : s.Advances (c.params totalBytes) := by
  have hturn : ∀ main e, Session.mainStep (c.params totalBytes) s.env s.main .next = some (main, e) →
      main.turns (s.env.apply e).files.keys.length < s.main.turns s.env.files.keys.length →
      s.Advances (c.params totalBytes) := fun _ _ => Session.advances_of_mainStep
  have hcompleting := h.receives.main
  have hleft := h.receives.streams
  have hmapped := h.receives.sweeping.mapped
  cases hmain : s.main with
  | spawning left =>
      rw [hmain, MainPc.left] at hleft
      obtain rfl : left = 0 := by omega
      rw [hmain] at hturn
      refine hturn .joining .quiet rfl ?_
      rw [Env.apply_quiet]
      exact Nat.lt_succ_self _
  | joining =>
      refine ⟨.join s.env.files.keys, { s with main := .checking s.env.files.keys },
        Or.inr ⟨_, rfl⟩, rfl, ?_, rfl, by rw [hmain]; exact Nat.lt_succ_self _⟩
      have hjoined : s.workers.all fun w => w.pc.result?.isSome := by
        rw [List.all_eq_true]
        intro w hw
        obtain ⟨r, hr⟩ := hended w hw
        rw [hr]
        rfl
      have herror : firstError s.workers = none := by
        refine List.findSome?_eq_none_iff.2 fun w hw => ?_
        split
        · next error hpc => exact absurd hpc (h.not_failed hw error)
        · rfl
      simp only [Session.step, Session.stepEffect, hmain, hjoined, herror, List.Perm.refl,
        and_self, if_true, Option.map_some]
  | checking todo =>
      rw [hmain] at hturn hmapped
      cases todo with
      | nil => exact hturn .completing .quiet rfl (Nat.lt_succ_self 1)
      | cons id todo =>
          obtain ⟨st, hst⟩ := hmapped id List.mem_cons_self
          refine hturn (.syncing id todo) .quiet ?_ ?_
          · simp only [Session.mainStep, hst,
              h.complete hready hoffers hstreams hall hended hst, if_true]
          · show 4 * todo.length + 5 < 4 * (todo.length + 1) + 2
            omega
  | syncing id todo =>
      rw [hmain] at hturn hmapped
      obtain ⟨st, hst⟩ := hmapped id List.mem_cons_self
      refine hturn (.dropping id todo) (.fsync st.sink.ino) ?_ (Nat.lt_succ_self _)
      simp only [Session.mainStep, hst]
  | dropping id todo =>
      rw [hmain] at hturn hmapped
      obtain ⟨st, hst⟩ := hmapped id List.mem_cons_self
      refine hturn (.droppingTmp id todo) (.unlink (statePath st.sink.path)) ?_ (Nat.lt_succ_self _)
      simp only [Session.mainStep, hst]
  | droppingTmp id todo =>
      rw [hmain] at hturn hmapped
      obtain ⟨st, hst⟩ := hmapped id List.mem_cons_self
      refine hturn (.checking todo) (.unlink (tmpPath st.sink.path)) ?_ (Nat.lt_succ_self _)
      simp only [Session.mainStep, hst]
  | completing =>
      rw [hmain] at hturn
      exact hturn (.returned (.ok s.env.counter)) (.send (.complete s.env.counter)) rfl
        Nat.one_pos
  | returned r =>
      rw [hmain] at hcompleting
      cases r with
      | ok m => exact absurd hmain (hrun m)
      | error error => exact hcompleting.elim
  | _ =>
      rw [hmain] at hcompleting
      exact hcompleting.elim

/-- **The receiver goes on to `Complete`**: in some run, and in no run to anything else. -/
theorem confirms (h : t.Sharing c offered bitmaps s₀ s lanes)
    (hpos : 0 < c.senderConfig.frameSize.toNat)
    (hmax : c.senderConfig.frameSize.toNat ≤ MAX_FRAME_PAYLOAD)
    (hall : s.workers.length = c.senderConfig.streamCount.toNat)
    (hended : ∀ w ∈ s.workers, ∃ r, w.pc = .ended r) :
    ∃ as t' accept totalBytes s' m, (∀ a ∈ as, a.honest = true) ∧ t.runs c as = some t' ∧
      t'.receiver = .running accept totalBytes s' ∧ s'.main = .returned (.ok m) ∧
      .complete m ∈ s'.env.sent := by
  induction hturns : s.main.turns s.env.files.keys.length using Nat.strong_induction_on
    generalizing t s lanes with
  | _ turns ih =>
      obtain ⟨accept, totalBytes, hreceiver⟩ := h.receiver
      by_cases hret : ∃ m, s.main = .returned (.ok m)
      · obtain ⟨m, hm⟩ := hret
        exact ⟨[], t, accept, totalBytes, s, m, by simp, rfl, hreceiver, hm,
          h.receives.sweeping.told m hm⟩
      · obtain ⟨act, s', hact, hhonest, hstep, hworkers, hless⟩ := h.advances hready hoffers hstreams
          hall hended (fun m hm => hret ⟨m, hm⟩) totalBytes
        have ht := step_session hreceiver hact hstep
        obtain ⟨s₁, lanes', h'⟩ := h.step hready hoffers hpos hmax hstreams hhonest (step_moves ht)
        obtain ⟨accept', totalBytes', hreceiver'⟩ := h'.receiver
        cases hreceiver'
        obtain ⟨as, t', accept', totalBytes', s'', m, has, hruns, hrest⟩ :=
          ih _ (hturns ▸ hless) h' (hworkers ▸ hall) (hworkers ▸ hended) rfl
        refine ⟨.session act :: as, t', accept', totalBytes', s'', m, fun a ha => ?_, ?_, hrest⟩
        · rcases List.mem_cons.1 ha with rfl | ha
          · exact hhonest
          · exact has a ha
        · rw [runs, Run.runs_cons, ht, Option.bind_some]
          exact hruns

end Sharing

/-! ## Delivery -/

/-- What an honest transfer, whose receiver began as `s₀`, has brought about at any time, with the
    chunks each stream has carried so far. -/
structure Delivering (c : Parties) (offered : List (SourceFile × FileEntry))
    (bitmaps : List ChunkBitmap) (s₀ : Session) (t : Transfer) (s : Session)
    (carried : List (List WorkItem)) : Prop where
  receiver : ∃ accept totalBytes, t.receiver = .running accept totalBytes s
  sound : ∀ w ∈ s.workers, ∀ error, w.pc ≠ .ended (.error error)
  /-- a chunk is one run of frames on its stream -/
  length_eq : carried.length = t.sender.workers.length
  wires : ∀ (i : Nat) sw items, t.sender.workers[i]? = some sw → carried[i]? = some items →
    sw.stream.written <+: items.flatMap (WorkItem.wire c.senderConfig.frameSize.toNat offered)
  /-- a missing chunk is carried at most once, a held one never -/
  once : ∀ item, carried.flatten.count item ≤ (missing bitmaps item).toNat
  written : ∀ (i : Nat) x st, offered[i]? = some x →
    s.env.files.lookup (UInt64.ofNat i) = some st →
    ∃ ops, s₀.env.disk.Since s.env.disk st.sink.ino ops ∧
      ∀ k j, k < st.layout.count → j < st.layout.len k →
        writeCount ops (st.layout.start k + j) ≤ (missing bitmaps ⟨i, k⟩).toNat
  completing : s.main.Completing
  told : ∀ m, s.main = .returned (.ok m) → .complete m ∈ s.env.sent

/-- What it has brought about once every receiving worker has ended. -/
structure Delivered (c : Parties) (offered : List (SourceFile × FileEntry))
    (bitmaps : List ChunkBitmap) (s₀ : Session) (t : Transfer) (s : Session)
    (carried : List (List WorkItem)) : Prop where
  wires : ∀ (i : Nat) sw items, t.sender.workers[i]? = some sw → carried[i]? = some items →
    sw.stream.written = items.flatMap (WorkItem.wire c.senderConfig.frameSize.toNat offered)
  once : ∀ item, carried.flatten.count item = (missing bitmaps item).toNat
  landed : ∀ (i : Nat) f, c.files[i]? = some f → ∃ x st, offered[i]? = some x ∧
    s.env.files.lookup (UInt64.ofNat i) = some st ∧
    st.Serves c.blake3 c.outputDir c.senderConfig.chunkSize x.2 ∧
    s.env.disk.node st.sink.path = some (.file st.sink.ino) ∧ st.bitmap.isComplete = true ∧
    (s.env.disk.data st.sink.ino).take f.data.length = f.data ∧
    ∃ ops, s₀.env.disk.Since s.env.disk st.sink.ino ops ∧
      ∀ k j, k < st.layout.count → j < st.layout.len k →
        writeCount ops (st.layout.start k + j) = (missing bitmaps ⟨i, k⟩).toNat
  confirms : ∃ as t' accept totalBytes s' m, (∀ a ∈ as, a.honest = true) ∧
    t.runs c as = some t' ∧ t'.receiver = .running accept totalBytes s' ∧
    s'.main = .returned (.ok m) ∧ .complete m ∈ s'.env.sent

namespace Sharing

variable {c : Parties} {offered : List (SourceFile × FileEntry)} {bitmaps : List ChunkBitmap}
  {s₀ s : Session} {t : Transfer} {lanes : List Lane}

theorem count_carried (lanes : List Lane) (item : WorkItem) :
    (lanes.map Lane.items).flatten.count item = Lanes.takes lanes item := by
  rw [List.count_flatten, List.map_map]
  rfl

theorem delivering (h : t.Sharing c offered bitmaps s₀ s lanes) :
    t.Delivering c offered bitmaps s₀ s (lanes.map Lane.items) where
  receiver := h.receiver
  sound := fun w hw error => h.not_failed hw error
  length_eq := by rw [List.length_map, h.length_eq]
  wires := by
    intro i sw items hsw hitems
    rw [List.getElem?_map, Option.map_eq_some_iff] at hitems
    obtain ⟨l, hl, rfl⟩ := hitems
    exact ⟨_, (h.linked i l sw hl hsw).sent⟩
  once := by
    intro item
    have := h.shared item
    rw [count_carried]
    omega
  written := by
    intro i x st hx hst
    obtain ⟨ops, hsince, -, hops⟩ := h.receives.written i x st hx hst
    refine ⟨ops, hsince, fun k j hk hj => ?_⟩
    have hle := Lanes.writes_le_takes lanes ⟨i, k⟩ j
    have := h.shared ⟨i, k⟩
    rw [hops k j hk hj]
    omega
  completing := h.receives.main
  told := h.receives.sweeping.told

variable (hready : s₀.Ready c offered bitmaps) (hoffers : c.Offers offered)
  (hstreams : 0 < c.senderConfig.streamCount.toNat)
include hready hoffers hstreams

/-- **The sink of a file holds the file**: what was held is left as it was, and what was missing is
    copied. -/
theorem data_eq (h : t.Sharing c offered bitmaps s₀ s lanes)
    (hall : s.workers.length = c.senderConfig.streamCount.toNat)
    (hended : ∀ w ∈ s.workers, ∃ r, w.pc = .ended r) {i : Nat} {x : SourceFile × FileEntry}
    {st : FileState} (hx : offered[i]? = some x)
    (hst : s.env.files.lookup (UInt64.ofNat i) = some st) :
    (s.env.disk.data st.sink.ino).take x.1.map.length = x.1.map := by
  obtain ⟨b, st₀, hb, hst₀, hserves, rfl⟩ := hready.file hoffers hx
  obtain ⟨f, -, hoff⟩ := hoffers.of_offered hx
  obtain ⟨st', hst', hsame⟩ := h.receives.same _ st₀ hst₀
  obtain rfl := Option.some.inj (hst.symm.trans hst')
  obtain ⟨ops, hsince, hcopies, hops⟩ := h.receives.written i x st hx hst
  have hlayout := hoff.layout_eq hserves
  apply List.ext_getElem?
  intro pos
  rw [List.getElem?_take]
  split
  swap
  · next hge => rw [List.getElem?_eq_none (Nat.not_lt.1 hge)]
  next hpos =>
    rw [hsince.data]
    refine getElem?_applyAll_of_copies hcopies hpos ?_
    -- the chunk of the byte is held, or it is missing and written
    have hsize : pos < x.1.layout.fileSize := x.1.size_eq ▸ hpos
    obtain ⟨hlo, hhi⟩ := x.1.layout.mem_chunk hsize
    have hk : pos / x.1.layout.chunkSize < x.1.layout.count := by
      rw [x.1.layout.lt_count_iff]
      exact lt_of_le_of_lt (Nat.div_mul_le_self _ _) hsize
    generalize pos / x.1.layout.chunkSize = k at hlo hhi hk
    by_cases hheld : st₀.bitmap.has k = true
    · left
      have hbytes := hready.held i x st₀ k hx (hoffers.fileId_eq hx ▸ hst₀) hheld
      have hbyte := congrArg (fun l => l[pos - x.1.layout.start k]?) hbytes
      simp only [hlayout, getElem?_slice] at hbyte
      rw [if_pos (by omega), if_pos (by omega), Nat.add_sub_cancel' hlo] at hbyte
      rw [hsame.sink]
      exact hbyte
    · right
      have hmissing : missing bitmaps ⟨i, k⟩ = true := by
        refine missing_iff.2 ⟨_, hb, ?_, by simpa using hheld⟩
        rw [(hready.sized _ st₀ hst₀).2, hlayout]
        exact hk
      have hcount := hops k (pos - x.1.layout.start k)
      rw [hsame.layout, hlayout, (h.all_done hstreams hall hended ⟨i, k⟩).2.2, hmissing,
        Nat.add_sub_cancel' hlo] at hcount
      rw [hcount hk (by omega)]
      exact Nat.one_pos

theorem delivered (h : t.Sharing c offered bitmaps s₀ s lanes)
    (hpos : 0 < c.senderConfig.frameSize.toNat)
    (hmax : c.senderConfig.frameSize.toNat ≤ MAX_FRAME_PAYLOAD)
    (hall : s.workers.length = c.senderConfig.streamCount.toNat)
    (hended : ∀ w ∈ s.workers, ∃ r, w.pc = .ended r) :
    t.Delivered c offered bitmaps s₀ s (lanes.map Lane.items) where
  wires := by
    intro i sw items hsw hitems
    rw [List.getElem?_map, Option.map_eq_some_iff] at hitems
    obtain ⟨l, hl, rfl⟩ := hitems
    obtain ⟨l', hl', -, -, hwritten⟩ := h.lane_done hall hended hsw
    obtain rfl := Option.some.inj (hl.symm.trans hl')
    exact hwritten
  once := fun item => (count_carried lanes item).trans (h.all_done hstreams hall hended item).1
  landed := by
    intro i f hf
    obtain ⟨x, hx, hoff⟩ := hoffers.of_file hf
    obtain ⟨b, st₀, hb, hst₀, hserves, -⟩ := hready.file hoffers hx
    obtain ⟨st, hst, hsame⟩ := h.receives.same _ st₀ hst₀
    have hdata := h.data_eq hready hoffers hstreams hall hended hx hst
    obtain ⟨ops, hsince, -, hops⟩ := h.receives.written i x st hx hst
    rw [hoff.map_eq] at hdata
    refine ⟨x, st, hx, hst, hserves.mono hsame, h.receives.tidy.wired.named _ st hst,
      h.complete hready hoffers hstreams hall hended hst, hdata, ops, hsince, fun k j hk hj => ?_⟩
    rw [hops k j hk hj, (h.all_done hstreams hall hended ⟨i, k⟩).2.2]
  confirms := h.confirms hready hoffers hstreams hpos hmax hall hended

end Sharing

/-- **Honest delivery.** In every honest run from the receiver's `Accept` on: no receiving worker
    fails, each missing chunk is carried at most once, as one run of frames on one stream, and
    written at most once, and no held chunk is; and once all receiving workers have ended, each
    missing chunk has been carried and written exactly once, every bitmap is complete, every sink
    starts with its file, and the receiver goes on to `Complete`. -/
theorem honest_delivery {c : Parties} {offered : List (SourceFile × FileEntry)}
    {bitmaps : List ChunkBitmap} {t₀ t : Transfer} {s₀ : Session}
    (hpos : 0 < c.senderConfig.frameSize.toNat)
    (hmax : c.senderConfig.frameSize.toNat ≤ MAX_FRAME_PAYLOAD)
    (hstreams : 0 < c.senderConfig.streamCount.toNat)
    (hagreed : t₀.Agreed c offered bitmaps s₀) {as : List TransferAct}
    (hhonest : ∀ a ∈ as, a.honest = true) (hrun : t₀.runs c as = some t) :
    ∃ s carried, t.Delivering c offered bitmaps s₀ s carried ∧
      (s.workers.length = c.senderConfig.streamCount.toNat →
        (∀ w ∈ s.workers, ∃ r, w.pc = .ended r) →
        t.Delivered c offered bitmaps s₀ s carried) := by
  have hready := hagreed.ready
  have hoffers := hagreed.offers
  cases as with
  | nil =>
      rw [runs, Run.runs_nil, Option.some.injEq] at hrun
      subst hrun
      obtain ⟨totalBytes, hreceiver⟩ := hagreed.receiver
      have hreceives := hready.receives hoffers
      refine ⟨s₀, [], ⟨⟨_, _, hreceiver⟩, fun w hw => ?_, ?_, fun i sw items _ hitems => ?_,
        fun item => Nat.zero_le _, fun i x st _ _ => ⟨[], .refl _ _, fun _ _ _ _ => Nat.zero_le _⟩,
        hreceives.main, hreceives.sweeping.told⟩, fun hall => ?_⟩
      · rw [hready.workers] at hw
        cases hw
      · rw [hagreed.idle]
        rfl
      · cases hitems
      · rw [hready.workers] at hall
        exact absurd hall (Nat.ne_of_lt hstreams)
  | cons a as =>
      obtain ⟨t₁, hstep, hrest⟩ := Run.runs_cons_some hrun
      have hfirst := hagreed.step hstreams (hhonest a List.mem_cons_self) (step_moves hstep)
      obtain ⟨s, lanes, h⟩ : ∃ s lanes, t.Sharing c offered bitmaps s₀ s lanes := by
        refine Run.invariant_of (C := fun _ a => a.honest = true)
          (I := fun t : Transfer => ∃ s lanes, t.Sharing c offered bitmaps s₀ s lanes)
          (fun t a t' h ha hstep => ?_) ⟨s₀, [], hfirst⟩
          (Run.Meets.of_forall fun b hb => hhonest b (List.mem_cons_of_mem _ hb)) hrest
        obtain ⟨s, lanes, h⟩ := h
        exact h.step hready hoffers hpos hmax hstreams ha (step_moves hstep)
      exact ⟨s, lanes.map Lane.items, h.delivering, fun hall hended =>
        h.delivered hready hoffers hstreams hpos hmax hall hended⟩

end Transfer

/-- Up to the sender's wait for the answer, and what comes after the offer. -/
def oneByteGreeted : List TransferAct :=
  [.sender (.opens [{ opens := true, stats := true, maps := true }]), .sender .next, .hello true,
    .sender .next]

def oneByteDelivered : List TransferAct :=
  oneByteTransferred.drop 5

/-- The sender awaits the answer, and the receiver has accepted files it holds nothing of, whose
    names are apart from their records. -/
def Transfer.accepted (t : Transfer) : Bool :=
  match t.receiver with
  | .running _ _ s => s.env.files.entries.all fun e =>
      decide (e.2.bitmap = ChunkBitmap.new e.2.layout.count) && s.env.files.entries.all fun e' =>
        decide (e'.2.sink.path ≠ statePath e.2.sink.path ∧ e'.2.sink.path ≠ tmpPath e.2.sink.path)
  | _ => false

/-- Every stream has been read to its end. -/
def Transfer.drained (n : Nat) (t : Transfer) : Bool :=
  match t.receiver with
  | .running _ _ s => s.workers.length == n && s.workers.all fun w => w.pc.result?.isSome
  | _ => false

def SenderPc.isAwaiting : SenderPc → Bool
  | .awaitingAccept => true
  | _ => false

theorem Transfer.honest_delivery_oneByte :
    ∃ t₀ t : Transfer, ∃ s₀ offered bitmaps,
      t₀.Agreed oneByteParties offered bitmaps s₀ ∧
      t₀.runs oneByteParties oneByteDelivered = some t ∧
      ∃ s carried, t.Delivering oneByteParties offered bitmaps s₀ s carried ∧
        t.Delivered oneByteParties offered bitmaps s₀ s carried := by
  obtain ⟨t₁, ht₁, hawaits⟩ := Transfer.exists_runs oneByteParties oneByteGreeted
    (fun t => t.sender.main.isAwaiting && ((t.step oneByteParties
      (.offer [allCallsSucceed] true)).any fun t₀ => t₀.accepted &&
        (t₀.runs oneByteParties oneByteDelivered).any fun t => t.drained 1)) (by decide +kernel)
  simp only [Bool.and_eq_true, Option.any_eq_true] at hawaits
  obtain ⟨hmain, t₀, hstep, haccepted, t, hrun, hdrained⟩ := hawaits
  have hawaiting : t₁.sender.main = .awaitingAccept := by
    cases h : t₁.sender.main with
    | awaitingAccept => rfl
    | _ =>
        rw [h] at hmain
        cases hmain
  obtain ⟨accept, totalBytes, s₀, hreceiver⟩ : ∃ accept totalBytes s₀,
      t₀.receiver = .running accept totalBytes s₀ := by
    cases h : t₀.receiver with
    | running accept totalBytes s => exact ⟨accept, totalBytes, s, rfl⟩
    | _ =>
        simp only [Transfer.accepted, h] at haccepted
        cases haccepted
  simp only [Transfer.accepted, hreceiver, List.all_eq_true, Bool.and_eq_true, decide_eq_true_eq]
    at haccepted
  have hfile : ∀ {id : UInt64} {st : FileState}, s₀.env.files.lookup id = some st →
      (⟨id, st⟩ : Sigma fun _ : UInt64 => FileState) ∈ s₀.env.files.entries :=
    fun hst => AList.mem_lookup_iff.1 hst
  obtain ⟨bitmaps, hagreed⟩ := Transfer.agreed_of_offer ht₁ hawaiting hstep hreceiver
    (fun id id' st st' hst hst' => (haccepted _ (hfile hst)).2 _ (hfile hst'))
    (fun id st hst => by
      rw [(haccepted _ (hfile hst)).1]
      exact ⟨ChunkBitmap.wf_new _, rfl⟩)
    (fun i x st k _ hst hbit => by
      rw [(haccepted _ (hfile hst)).1, ChunkBitmap.has_new] at hbit
      cases hbit)
  obtain ⟨s, carried, hdelivering, hdelivered⟩ := Transfer.honest_delivery (by decide) (by decide)
    (by decide) hagreed (by decide) hrun
  obtain ⟨accept', totalBytes', hrunning⟩ := hdelivering.receiver
  simp only [Transfer.drained, hrunning, Bool.and_eq_true, beq_iff_eq, List.all_eq_true]
    at hdrained
  refine ⟨t₀, t, s₀, _, bitmaps, hagreed, hrun, s, carried, hdelivering,
    hdelivered hdrained.1 fun w hw => ?_⟩
  have hend := hdrained.2 w hw
  cases hpc : w.pc with
  | ended r => exact ⟨r, rfl⟩
  | _ =>
      rw [hpc] at hend
      cases hend

end AetherLink
