import AetherLink.Proofs.Agreement
import AetherLink.Proofs.Lane
import AetherLink.Proofs.Queue
import AetherLink.Lib.Tally

set_option autoImplicit false

/-! # What a receiver can make the sender send

Whatever the receiver answers, in whatever order the workers run and whichever calls fail: a worker
writes the frames of the chunks it has taken off the queue, one chunk after the other
(`SendWorker.Keeps`), and the queue is what the receiver's `Accept` asks for of the files that were
offered (`Sender.Serves`). -/

namespace AetherLink

open Bytes

/-! ## Any schedule and any receiver -/

/-- A step of `run`, which may read any message, or of one of the workers. -/
inductive SenderAct where
  | main (act : Sender.Act)
  | worker (i : Nat) (io : SendIo)

namespace Sender

def step (blake3 : Blake3) (config : Config) (files : List OutgoingFile) (s : Sender) :
    SenderAct → Option Sender
  | .main act => s.mainStep blake3 config files act
  | .worker i io => s.workerStep config.frameSize i io

abbrev runs (blake3 : Blake3) (config : Config) (files : List OutgoingFile) :
    Sender → List SenderAct → Option Sender :=
  Run.runs (step blake3 config files)

end Sender

/-! ## One worker -/

/-- The chunks a worker has taken off the queue, and those of them it has counted as sent. -/
structure Account where
  taken : List WorkItem
  counted : List WorkItem

/-- The account of a worker just spawned. -/
def Account.fresh : Account :=
  { taken := [], counted := [] }

/-- The account after an effect of its worker. -/
def Account.after (a : Account) (queue : List WorkItem) : SendEffect → Account
  | .pop => { a with taken := a.taken ++ queue.head?.toList }
  | .count _ => { a with counted := a.taken }
  | _ => a

theorem Account.taken_after_of_ne {a : Account} {queue : List WorkItem} {e : SendEffect}
    (hpop : e ≠ .pop) : (a.after queue e).taken = a.taken := by
  cases e with
  | pop => exact absurd rfl hpop
  | _ => rfl

theorem Account.counted_after_of_ne {a : Account} {queue : List WorkItem} {e : SendEffect}
    (hcount : ∀ bytes, e ≠ .count bytes) : (a.after queue e).counted = a.counted := by
  cases e with
  | count bytes => exact absurd rfl (hcount bytes)
  | _ => rfl

/-- The chunk a worker has taken and not yet counted. -/
def SendWorkerPc.uncounted : SendWorkerPc → List WorkItem
  | .header item _ => [item]
  | .part item _ => [item]
  | .counting item => [item]
  | _ => []

def SendWorkerPc.failed : SendWorkerPc → Bool
  | .ended (.error _) => true
  | _ => false

/-- The worker is past the point where it looks at the queue. -/
def SendWorkerPc.finished (pc : SendWorkerPc) : Prop :=
  pc.finishing = true ∧ pc.failed = false

/-- The bytes of a chunk. -/
def WorkItem.size (offered : List (SourceFile × FileEntry)) (item : WorkItem) : Nat :=
  (chunkOf offered item).toOption.elim 0 fun x => x.2.length

/-- A worker writes the chunks of its account, one after the other. -/
structure SendWorker.Keeps (frameSize : Nat) (offered : List (SourceFile × FileEntry)) (a : Account)
    (w : SendWorker) : Prop where
  counted : a.counted <+: a.taken
  /-- what is counted is written -/
  whole : a.counted.flatMap (WorkItem.wire frameSize offered) <+: w.stream.written
  /-- what is written is of the chunks taken -/
  within : w.stream.written <+: a.taken.flatMap (WorkItem.wire frameSize offered)
  in_hand : w.pc.failed = false → a.taken = a.counted ++ w.pc.uncounted
  ahead : w.pc.failed = false →
    w.stream.written ++ w.pc.rest frameSize offered
      = a.taken.flatMap (WorkItem.wire frameSize offered)
  cuts : (∃ item n, w.pc = .header item n ∨ w.pc = .part item n) → 0 < frameSize

section Worker

variable {frameSize : UInt32} {s : Sender} {a : Account} {w : SendWorker} {pc : SendWorkerPc}
  {io : SendIo} {e : SendEffect}

theorem SendWorker.keeps_fresh (frameSize : Nat) (offered : List (SourceFile × FileEntry)) :
    SendWorker.fresh.Keeps frameSize offered .fresh :=
  ⟨List.prefix_refl _, List.prefix_refl _, List.prefix_refl _, fun _ => rfl, fun _ => rfl, by
    rintro ⟨item, n, h | h⟩ <;> cases h⟩

/-- A worker that has failed over a write has written a part of what it had to. -/
theorem SendWorker.Keeps.cut_short (h : w.Keeps frameSize.toNat s.offered a)
    (hlive : w.pc.failed = false) {bytes more : List UInt8} {error : Error} (k : Nat)
    (hrest : w.pc.rest frameSize.toNat s.offered = bytes ++ more) :
    SendWorker.Keeps frameSize.toNat s.offered a
      { stream := { w.stream with written := w.stream.written ++ bytes.take k },
        pc := .ended (.error error) } := by
  have hahead := h.ahead hlive
  refine ⟨h.counted, h.whole.trans (List.prefix_append _ _), ?_, nofun, nofun, ?_⟩
  · show w.stream.written ++ bytes.take k <+: _
    rw [← hahead, hrest]
    exact (List.prefix_append_right_inj _).2 ((List.take_prefix k bytes).trans (List.prefix_append _ _))
  · rintro ⟨item, n, hpc | hpc⟩ <;> cases hpc

/-- A worker that goes on with its chunk writes the next of what it had to. -/
theorem SendWorker.Keeps.goes_on (h : w.Keeps frameSize.toNat s.offered a)
    (hlive : w.pc.failed = false) {bytes : List UInt8}
    (hrest : w.pc.rest frameSize.toNat s.offered = bytes ++ pc.rest frameSize.toNat s.offered)
    (hhand : pc.uncounted = w.pc.uncounted)
    (hcuts : (∃ item n, pc = .header item n ∨ pc = .part item n) → 0 < frameSize.toNat) :
    SendWorker.Keeps frameSize.toNat s.offered a
      { stream := { w.stream with written := w.stream.written ++ bytes }, pc := pc } := by
  have hahead := h.ahead hlive
  rw [hrest, ← List.append_assoc] at hahead
  refine ⟨h.counted, h.whole.trans (List.prefix_append _ _), ?_, fun _ => ?_, fun _ => hahead, hcuts⟩
  · rw [← hahead]
    exact List.prefix_append _ _
  · rw [h.in_hand hlive, hhand]

/-- A worker that goes on without writing. -/
theorem SendWorker.Keeps.moves (h : w.Keeps frameSize.toNat s.offered a)
    (hlive : w.pc.failed = false) {stream : Stream} (hwritten : stream.written = w.stream.written)
    (hrest : w.pc.rest frameSize.toNat s.offered = pc.rest frameSize.toNat s.offered)
    (hhand : pc.uncounted = w.pc.uncounted)
    (hcuts : (∃ item n, pc = .header item n ∨ pc = .part item n) → 0 < frameSize.toNat) :
    SendWorker.Keeps frameSize.toNat s.offered a { stream := stream, pc := pc } := by
  have hahead := h.ahead hlive
  rw [hrest] at hahead
  refine ⟨h.counted, ?_, ?_, fun _ => ?_, fun _ => ?_, hcuts⟩
  · exact hwritten ▸ h.whole
  · exact hwritten ▸ h.within
  · rw [h.in_hand hlive, hhand]
  · exact hwritten ▸ hahead

/-- A worker that takes a chunk off the queue has nothing of it written. -/
theorem SendWorker.Keeps.pops (h : w.Keeps frameSize.toNat s.offered a) (hpc : w.pc = .popping)
    {item : WorkItem} {rest : List WorkItem} (hqueue : s.queue = item :: rest)
    (hnext : (∃ error, pc = .ended (.error error)) ∨ (pc = .header item 0 ∧ 0 < frameSize.toNat)) :
    SendWorker.Keeps frameSize.toNat s.offered (a.after s.queue .pop)
      { stream := w.stream, pc := pc } := by
  have hafter : a.after s.queue .pop = { a with taken := a.taken ++ [item] } := by
    rw [hqueue]
    rfl
  have hhand := h.in_hand (by rw [hpc]; rfl)
  have hahead := h.ahead (by rw [hpc]; rfl)
  simp only [hpc, SendWorkerPc.uncounted, SendWorkerPc.rest, List.append_nil] at hhand hahead
  rw [hafter]
  refine ⟨h.counted.trans (List.prefix_append _ _), h.whole, ?_, fun hlive => ?_, fun hlive => ?_,
    fun hcutting => ?_⟩
  · show w.stream.written <+: (a.taken ++ [item]).flatMap _
    rw [hahead, List.flatMap_append]
    exact List.prefix_append _ _
  · rcases hnext with ⟨error, rfl⟩ | ⟨rfl, -⟩
    · cases hlive
    · show a.taken ++ [item] = a.counted ++ [item]
      rw [hhand]
  · rcases hnext with ⟨error, rfl⟩ | ⟨rfl, -⟩
    · cases hlive
    · show w.stream.written ++ item.framesFrom _ _ 0 = (a.taken ++ [item]).flatMap _
      rw [hahead, List.flatMap_append]
      simp [WorkItem.wire]
  · rcases hnext with ⟨error, rfl⟩ | ⟨-, hpos⟩
    · obtain ⟨i, n, hpc' | hpc'⟩ := hcutting <;> cases hpc'
    · exact hpos

/-- A worker that counts its chunk has it written. -/
theorem SendWorker.Keeps.counts (h : w.Keeps frameSize.toNat s.offered a) {item : WorkItem}
    (hpc : w.pc = .counting item) (bytes done : UInt64) :
    SendWorker.Keeps frameSize.toNat s.offered (a.after s.queue (.count bytes))
      { stream := w.stream, pc := .reporting done } := by
  have hahead := h.ahead (by rw [hpc]; rfl)
  simp only [hpc, SendWorkerPc.rest, List.append_nil] at hahead
  refine ⟨List.prefix_refl _, ?_, h.within, fun _ => (List.append_nil _).symm, fun _ => ?_, ?_⟩
  · show a.taken.flatMap _ <+: w.stream.written
    rw [hahead]
  · exact (List.append_nil _).trans hahead
  · rintro ⟨i, n, hpc' | hpc'⟩ <;> cases hpc'

/-- **What a step of a worker does to its stream and its account.** -/
theorem SendWorker.Keeps.step (h : w.Keeps frameSize.toNat s.offered a)
    (hstep : w.pc.step frameSize s io = some (pc, e)) :
    SendWorker.Keeps frameSize.toNat s.offered (a.after s.queue e)
      { stream := e.onStream w.stream, pc := pc } := by
  have hfree : ∀ {pc' : SendWorkerPc}, (∀ item n, pc' ≠ .header item n ∧ pc' ≠ .part item n) →
      (∃ item n, pc' = .header item n ∨ pc' = .part item n) → 0 < frameSize.toNat := by
    rintro pc' hne ⟨item, n, hpc | hpc⟩
    · exact absurd hpc (hne item n).1
    · exact absurd hpc (hne item n).2
  cases hpc : w.pc with
  | popping =>
      rw [hpc] at hstep
      cases io with
      | fail k => cases hstep
      | next =>
          simp only [SendWorkerPc.step] at hstep
          split at hstep
          · cases hstep
            exact h.moves (by rw [hpc]; rfl) rfl (by rw [hpc]; rfl) (by rw [hpc]; rfl)
              (hfree fun _ _ => ⟨by simp, by simp⟩)
          · next item rest hqueue =>
              split at hstep
              · cases hstep
                exact h.pops hpc hqueue (.inl ⟨_, rfl⟩)
              · split at hstep
                · cases hstep
                  exact h.pops hpc hqueue (.inl ⟨_, rfl⟩)
                · next hne =>
                    cases hstep
                    refine h.pops hpc hqueue (.inr ⟨rfl, Nat.pos_of_ne_zero fun hzero => hne ?_⟩)
                    exact UInt32.toNat_inj.1 hzero
  | header item n =>
      have hpos := h.cuts ⟨item, n, .inl hpc⟩
      have hlive : w.pc.failed = false := by rw [hpc]; rfl
      rw [hpc] at hstep
      simp only [SendWorkerPc.step] at hstep
      split at hstep
      · cases hstep
      · next offset payload hchunk =>
          by_cases hlt : n * frameSize.toNat < payload.length
          · -- one more frame: its header now, and then its part
            have hrest : w.pc.rest frameSize.toNat s.offered
                = (partHeader frameSize.toNat item offset n
                    (slice payload (n * frameSize.toNat) frameSize.toNat)).encode ++
                  (SendWorkerPc.part item n).rest frameSize.toNat s.offered := by
              rw [hpc, SendWorkerPc.rest, SendWorkerPc.rest, WorkItem.framesFrom_eq hchunk,
                WorkItem.framesFrom_eq hchunk, WorkItem.part_eq hchunk,
                framesFrom_of_lt item offset hpos hlt, frame, List.append_assoc]
            rw [partOf_of_lt hlt] at hstep
            cases io with
            | next =>
                cases hstep
                exact h.goes_on hlive hrest (by rw [hpc]; rfl) fun _ => hpos
            | fail k =>
                cases hstep
                exact h.cut_short hlive k hrest
          · have hle := Nat.not_lt.1 hlt
            rw [partOf_of_le hle] at hstep
            cases io with
            | fail k => cases hstep
            | next =>
                cases hstep
                refine h.moves hlive rfl ?_ (by rw [hpc]; rfl) (hfree fun _ _ => ⟨by simp, by simp⟩)
                rw [hpc, SendWorkerPc.rest, WorkItem.framesFrom_eq hchunk,
                  framesFrom_of_le item offset hpos hle]
                rfl
  | part item n =>
      have hpos := h.cuts ⟨item, n, .inr hpc⟩
      have hlive : w.pc.failed = false := by rw [hpc]; rfl
      rw [hpc] at hstep
      simp only [SendWorkerPc.step] at hstep
      split at hstep
      · cases hstep
      · next offset payload hchunk =>
          by_cases hlt : n * frameSize.toNat < payload.length
          · have hrest : w.pc.rest frameSize.toNat s.offered
                = slice payload (n * frameSize.toNat) frameSize.toNat ++
                  (SendWorkerPc.header item (n + 1)).rest frameSize.toNat s.offered := by
              rw [hpc, SendWorkerPc.rest, SendWorkerPc.rest, WorkItem.part_eq hchunk]
            rw [partOf_of_lt hlt] at hstep
            cases io with
            | next =>
                cases hstep
                exact h.goes_on hlive hrest (by rw [hpc]; rfl) fun _ => hpos
            | fail k =>
                cases hstep
                exact h.cut_short hlive k hrest
          · rw [partOf_of_le (Nat.not_lt.1 hlt)] at hstep
            cases hstep
  | counting item =>
      rw [hpc] at hstep
      cases io with
      | fail k => cases hstep
      | next =>
          simp only [SendWorkerPc.step] at hstep
          split at hstep
          · cases hstep
          · cases hstep
            exact h.counts hpc _ _
  | reporting done =>
      rw [hpc] at hstep
      cases io with
      | fail k => cases hstep
      | next =>
          cases hstep
          exact h.moves (by rw [hpc]; rfl) rfl (by rw [hpc]; rfl) (by rw [hpc]; rfl)
            (hfree fun _ _ => ⟨by simp, by simp⟩)
  | closing =>
      rw [hpc] at hstep
      cases io with
      | next =>
          cases hstep
          exact h.moves (by rw [hpc]; rfl) rfl (by rw [hpc]; rfl) (by rw [hpc]; rfl)
            (hfree fun _ _ => ⟨by simp, by simp⟩)
      | fail k =>
          cases hstep
          exact h.moves (by rw [hpc]; rfl) rfl (by rw [hpc]; rfl) (by rw [hpc]; rfl)
            (hfree fun _ _ => ⟨by simp, by simp⟩)
  | draining =>
      rw [hpc] at hstep
      cases hstep
      exact h.moves (by rw [hpc]; rfl) rfl (by rw [hpc]; rfl) (by rw [hpc]; rfl)
        (hfree fun _ _ => ⟨by simp, by simp⟩)
  | ended result =>
      rw [hpc] at hstep
      cases io <;> cases hstep

end Worker

/-! ## All workers -/

namespace Sender

/-- Every stream is established from some place on, and past the join every worker has ended well. -/
def Placed (config : Config) (s : Sender) : Prop :=
  match s.main with
  | .spawning left => s.workers.length + left = config.streamCount.toNat
  | .joining i => s.workers.length = config.streamCount.toNat ∧
      ∀ w ∈ s.workers.take i, w.pc = .ended (.ok ())
  | .confirming => s.workers.length = config.streamCount.toNat ∧
      ∀ w ∈ s.workers, w.pc = .ended (.ok ())
  | .returned (.ok _) => s.workers.length = config.streamCount.toNat ∧
      ∀ w ∈ s.workers, w.pc = .ended (.ok ())
  | .returned (.error _) => True
  | _ => False

/-- The sender since it has read this `Accept`, with the accounts of its workers. -/
structure Serves (config : Config) (acts : List SenderAct) (accept : ManifestAccept)
    (accounts : List Account) (s : Sender) : Prop where
  read : .main (.reads (.accept accept)) ∈ acts
  length_eq : accounts.length = s.workers.length
  keeps : ∀ (i : Nat) (w : SendWorker) (a : Account), s.workers[i]? = some w →
    accounts[i]? = some a →
    w.Keeps config.frameSize.toNat s.offered a
  shared : (accounts.flatMap Account.taken ++ s.queue).Perm (neededItems accept s.offered 0)
  sent : s.sent
    = UInt64.ofNat ((accounts.flatMap Account.counted).map (WorkItem.size s.offered)).sum
  bytesToSend : s.bytesToSend = UInt64.ofNat (neededBytes accept s.offered)
  bitmaps : ∀ x ∈ s.offered, x.2.fileId ∈ accept.acceptedFileIds →
    ∃ b, haveBitmap accept x.2 x.1.layout.count = .ok b
  drained : ∀ w ∈ s.workers, w.pc.finished → s.queue = []
  placed : s.Placed config
  confirmed : ∀ n, s.main = .returned (.ok n) →
    ∃ m, .main (.reads (.complete m)) ∈ acts ∧ n = max m s.bytesToSend

/-- The sender before it has read an `Accept`, or if it has returned over something else. -/
structure Silent (s : Sender) : Prop where
  workers : s.workers = []
  queue : s.queue = []
  sent : s.sent = 0
  main : (∃ error, s.main = .returned (.error error)) ∨ s.main = .opening ∨ s.main = .greeting ∨
    s.main = .offering ∨ s.main = .awaitingAccept

end Sender

/-! ### Steps of the workers -/

/-- What a step of a worker does to what the workers share. -/
inductive SendShare (offered : List (SourceFile × FileEntry)) (queue : List WorkItem)
    (pc pc' : SendWorkerPc) : SendEffect → Prop
  | pops {item : WorkItem} {rest : List WorkItem} (hqueue : queue = item :: rest)
      (hpc' : ¬ pc'.finished) : SendShare offered queue pc pc' .pop
  | counts {item : WorkItem} (hpc : pc = .counting item) (hpc' : ¬ pc'.finished) :
      SendShare offered queue pc pc' (.count (UInt64.ofNat (item.size offered)))
  | aside {e : SendEffect} (hpop : e ≠ .pop) (hcount : ∀ bytes, e ≠ .count bytes)
      (hpc' : pc'.finished → pc.finished ∨ queue = []) : SendShare offered queue pc pc' e

theorem SendWorkerPc.step_shares {frameSize : UInt32} {s : Sender} {pc pc' : SendWorkerPc}
    {io : SendIo} {e : SendEffect} (h : pc.step frameSize s io = some (pc', e)) :
    SendShare s.offered s.queue pc pc' e := by
  have hlive : ∀ {pc : SendWorkerPc}, pc.finishing = false → ¬ pc.finished :=
    fun hpc hfin => Bool.false_ne_true (hpc.symm.trans hfin.1)
  have hfailed : ∀ error, ¬ (SendWorkerPc.ended (.error error)).finished :=
    fun error hfin => Bool.false_ne_true hfin.2.symm
  cases pc with
  | popping =>
      cases io with
      | fail k => cases h
      | next =>
          simp only [step] at h
          split at h
          · next hqueue =>
              cases h
              exact .aside (by simp) (by simp) fun _ => .inr hqueue
          · next hqueue =>
              split at h
              · cases h
                exact .pops hqueue (hfailed _)
              · split at h
                · cases h
                  exact .pops hqueue (hfailed _)
                · cases h
                  exact .pops hqueue (hlive rfl)
  | header item n =>
      simp only [step] at h
      split at h
      · cases h
      · split at h
        · cases h
          exact .aside (by simp) (by simp) fun hfin => absurd hfin (hlive rfl)
        · cases h
        · cases h
          exact .aside (by simp) (by simp) fun hfin => absurd hfin (hlive rfl)
        · cases h
          exact .aside (by simp) (by simp) fun hfin => absurd hfin (hfailed _)
  | part item n =>
      simp only [step] at h
      split at h
      · cases h
      · split at h
        · cases h
        · cases h
          exact .aside (by simp) (by simp) fun hfin => absurd hfin (hlive rfl)
        · cases h
          exact .aside (by simp) (by simp) fun hfin => absurd hfin (hfailed _)
  | counting item =>
      cases io with
      | fail k => cases h
      | next =>
          simp only [step] at h
          split at h
          · cases h
          · next offset payload hchunk =>
              cases h
              have hsize : payload.length = item.size s.offered := by
                rw [WorkItem.size, hchunk]
                rfl
              rw [hsize]
              exact .counts rfl (hlive rfl)
  | reporting done =>
      cases io with
      | fail k => cases h
      | next =>
          cases h
          exact .aside (by simp) (by simp) fun hfin => absurd hfin (hlive rfl)
  | closing =>
      cases io with
      | next =>
          cases h
          exact .aside (by simp) (by simp) fun _ => .inl ⟨rfl, rfl⟩
      | fail k =>
          cases h
          exact .aside (by simp) (by simp) fun hfin => absurd hfin (hfailed _)
  | draining =>
      cases h
      exact .aside (by simp) (by simp) fun _ => .inl ⟨rfl, rfl⟩
  | ended result => cases io <;> cases h

namespace Sender

variable {blake3 : Blake3} {config : Config} {files : List OutgoingFile} {acts : List SenderAct}
  {accept : ManifestAccept} {accounts : List Account} {s s' : Sender}

/-- A worker that has ended takes no step. -/
theorem Placed.worker (h : s.Placed config) {i : Nat} {w w' : SendWorker}
    (hw : s.workers[i]? = some w) (hlive : ∀ result, w.pc ≠ .ended result) (hmain : s'.main = s.main)
    (hworkers : s'.workers = s.workers.set i w') : s'.Placed config := by
  have hlen : s'.workers.length = s.workers.length := by rw [hworkers, List.length_set]
  unfold Placed at *
  rw [hmain]
  cases hpc : s.main with
  | spawning left =>
      simp only [hpc] at h ⊢
      rw [hlen]
      exact h
  | joining k =>
      simp only [hpc] at h ⊢
      refine ⟨hlen.trans h.1, fun v hv => h.2 v ?_⟩
      have hle : k ≤ i := by
        refine Nat.le_of_not_lt fun hlt => hlive _ (h.2 w ?_)
        exact List.mem_of_getElem? (i := i) (by rw [List.getElem?_take_of_lt hlt, hw])
      rwa [hworkers, List.take_set_of_le hle] at hv
  | confirming =>
      simp only [hpc] at h
      exact absurd (h.2 w (List.mem_of_getElem? hw)) (hlive _)
  | returned result =>
      cases result with
      | ok n =>
          simp only [hpc] at h
          exact absurd (h.2 w (List.mem_of_getElem? hw)) (hlive _)
      | error e => trivial
  | _ => simp only [hpc] at h

/-- It is a matter of where the workers are. -/
theorem Placed.of_pcs (h : s.Placed config) (hmain : s'.main = s.main)
    (hpcs : s'.workers.map (·.pc) = s.workers.map (·.pc)) : s'.Placed config := by
  have hlen : s'.workers.length = s.workers.length := by
    have := congrArg List.length hpcs
    rwa [List.length_map, List.length_map] at this
  have hended : ∀ k, (∀ w ∈ s.workers.take k, w.pc = .ended (.ok ())) →
      ∀ w ∈ s'.workers.take k, w.pc = .ended (.ok ()) := by
    intro k hall w hw
    have hpc : w.pc ∈ (s'.workers.take k).map (·.pc) := List.mem_map_of_mem hw
    rw [List.map_take, hpcs, ← List.map_take] at hpc
    obtain ⟨v, hv, hvw⟩ := List.mem_map.1 hpc
    exact hvw.symm.trans (hall v hv)
  have hevery : (∀ w ∈ s.workers, w.pc = .ended (.ok ())) →
      ∀ w ∈ s'.workers, w.pc = .ended (.ok ()) := by
    have := hended s.workers.length
    rwa [List.take_length, ← hlen, List.take_length] at this
  unfold Placed at *
  rw [hmain, hlen]
  cases hpc : s.main with
  | spawning left =>
      rw [hpc] at h
      exact h
  | joining k =>
      rw [hpc] at h
      exact ⟨h.1, hended k h.2⟩
  | confirming =>
      rw [hpc] at h
      exact ⟨h.1, hevery h.2⟩
  | returned result =>
      rw [hpc] at h
      cases result with
      | ok n => exact ⟨h.1, hevery h.2⟩
      | error e => trivial
  | _ =>
      rw [hpc] at h
      exact h

/-- **A turn of `run` past the answer.** -/
theorem Placed.main_step (h : s.Placed config) {act : Act}
    (hstep : s.mainStep blake3 config files act = some s') : s'.Placed config := by
  unfold Placed at h
  cases mainStep_moves hstep with
  | opened hmain hlen hoffered =>
      rw [hmain] at h
      exact h.elim
  | notOpened hmain | greets hmain | offers hmain | refused hmain =>
      rw [hmain] at h
      exact h.elim
  | accepted hmain hqueue =>
      rw [hmain] at h
      exact h.elim
  | @spawns left hmain =>
      rw [hmain] at h
      show (s.workers ++ [SendWorker.fresh]).length + left = config.streamCount.toNat
      rw [List.length_append, List.length_singleton]
      omega
  | spawned hmain =>
      rw [hmain] at h
      exact ⟨h, by simp⟩
  | @joins i w hmain hw hpc =>
      rw [hmain] at h
      refine ⟨h.1, fun v hv => ?_⟩
      rw [List.take_add_one, hw] at hv
      rcases List.mem_append.1 hv with hold | hnew
      · exact h.2 v hold
      · obtain rfl : v = w := by simpa using hnew
        exact hpc
  | workerFailed hmain hw hpc | fails hmain => trivial
  | @joined i hmain hw =>
      rw [hmain] at h
      refine ⟨h.1, fun v hv => h.2 v ?_⟩
      rwa [List.take_of_length_le (List.getElem?_eq_none_iff.1 hw)]
  | @confirms body hmain =>
      rw [hmain] at h
      cases body with
      | complete m => exact h
      | _ => trivial

theorem queue_apply_of_ne {e : SendEffect} (hpop : e ≠ .pop) : (s.apply e).queue = s.queue := by
  cases e with
  | pop => exact absurd rfl hpop
  | _ => rfl

theorem sent_apply_of_ne {e : SendEffect} (hcount : ∀ bytes, e ≠ .count bytes) :
    (s.apply e).sent = s.sent := by
  cases e with
  | count bytes => exact absurd rfl (hcount bytes)
  | _ => rfl

/-- What is taken and what is queued are together what they were. -/
theorem taken_step {i : Nat} {a : Account} {pc pc' : SendWorkerPc} {e : SendEffect}
    (h : SendShare s.offered s.queue pc pc' e) (ha : accounts[i]? = some a) :
    ((accounts.set i (a.after s.queue e)).flatMap Account.taken ++ (s.apply e).queue).Perm
      (accounts.flatMap Account.taken ++ s.queue) := by
  have hset := List.flatMap_set_perm ha (a.after s.queue e) Account.taken
  cases h with
  | @pops item rest hqueue hpc' =>
      have happly : (s.apply .pop).queue = rest := by
        show s.queue.tail = rest
        rw [hqueue]
        rfl
      have hafter : (a.after s.queue .pop).taken = a.taken ++ [item] := by
        rw [hqueue]
        rfl
      rw [hafter] at hset
      have hmore : ((accounts.set i (a.after s.queue .pop)).flatMap Account.taken).Perm
          (accounts.flatMap Account.taken ++ [item]) := by
        refine (List.perm_append_right_iff a.taken).1 (hset.trans ?_)
        rw [List.append_assoc]
        exact List.perm_append_comm.append_left _
      rw [happly]
      refine (hmore.append_right rest).trans ?_
      rw [List.append_assoc, List.singleton_append, ← hqueue]
  | counts hpc hpc' => exact ((List.perm_append_right_iff a.taken).1 hset).append_right _
  | aside hpop hcount hpc' =>
      rw [queue_apply_of_ne hpop, Account.taken_after_of_ne hpop] at *
      exact ((List.perm_append_right_iff a.taken).1 hset).append_right _

/-- What is counted as sent is what the workers have counted. -/
theorem counted_step {i : Nat} {a : Account} {w : SendWorker} {pc : SendWorkerPc} {e : SendEffect}
    (h : SendShare s.offered s.queue w.pc pc e) (ha : accounts[i]? = some a)
    (hkeeps : w.Keeps config.frameSize.toNat s.offered a)
    (hsent : s.sent
      = UInt64.ofNat ((accounts.flatMap Account.counted).map (WorkItem.size s.offered)).sum) :
    (s.apply e).sent = UInt64.ofNat (((accounts.set i (a.after s.queue e)).flatMap
      Account.counted).map (WorkItem.size s.offered)).sum := by
  have hset := List.flatMap_set_perm ha (a.after s.queue e) Account.counted
  have hsum := (hset.map (WorkItem.size s.offered)).sum_eq
  simp only [List.map_append, List.sum_append] at hsum
  cases h with
  | pops hqueue hpc' =>
      have hafter : (a.after s.queue .pop).counted = a.counted := rfl
      rw [hafter] at hsum
      show s.sent = _
      rw [hsent]
      congr 1
      omega
  | @counts item hpc hpc' =>
      have hafter : (a.after s.queue (.count (UInt64.ofNat (item.size s.offered)))).counted
          = a.counted ++ [item] := by
        have hhand := hkeeps.in_hand (by rw [hpc]; rfl)
        rw [hpc] at hhand
        exact hhand
      rw [hafter, List.map_append, List.sum_append] at hsum
      show s.sent + UInt64.ofNat (item.size s.offered) = _
      rw [hsent, ← UInt64.ofNat_add]
      congr 1
      simp only [List.map_cons, List.map_nil, List.sum_cons, List.sum_nil] at hsum
      omega
  | aside hpop hcount hpc' =>
      rw [Account.counted_after_of_ne hcount] at hsum
      rw [sent_apply_of_ne hcount, hsent]
      congr 1
      omega

/-- A worker that has found the queue empty leaves it so. -/
theorem drained_step {i : Nat} {w w' : SendWorker} {e : SendEffect}
    (h : SendShare s.offered s.queue w.pc w'.pc e) (hw : s.workers[i]? = some w)
    (hdrained : ∀ v ∈ s.workers, v.pc.finished → s.queue = []) :
    ∀ v ∈ s.workers.set i w', v.pc.finished → (s.apply e).queue = [] := by
  have hempty : s.queue = [] → (s.apply e).queue = [] := by
    intro hnil
    cases e with
    | pop =>
        show s.queue.tail = []
        rw [hnil]
        rfl
    | _ => exact hnil
  intro v hv hfin
  rcases List.mem_or_eq_of_mem_set hv with hold | rfl
  · exact hempty (hdrained v hold hfin)
  · cases h with
    | pops hqueue hpc' => exact absurd hfin hpc'
    | counts hpc hpc' => exact absurd hfin hpc'
    | aside hpop hcount hpc' =>
        rcases hpc' hfin with hbefore | hnil
        · exact hempty (hdrained w (List.mem_of_getElem? hw) hbefore)
        · exact hempty hnil

/-- **A step of a worker keeps the accounts.** -/
theorem Serves.worker_step (h : s.Serves config acts accept accounts) {i : Nat} {io : SendIo}
    (hstep : s.workerStep config.frameSize i io = some s') :
    ∃ accounts', s'.Serves config acts accept accounts' := by
  unfold workerStep at hstep
  split at hstep
  · cases hstep
  · next w hw =>
      split at hstep
      · cases hstep
      · next pc e hpc =>
          cases hstep
          obtain ⟨a, ha⟩ : ∃ a, accounts[i]? = some a := by
            have hi := (List.getElem?_eq_some_iff.1 hw).1
            exact ⟨_, List.getElem?_eq_getElem (h.length_eq ▸ hi)⟩
          have hkeeps := h.keeps i w a hw ha
          have hlive : ∀ result, w.pc ≠ .ended result := by
            intro result hended
            rw [hended] at hpc
            cases io <;> cases hpc
          have hshares := SendWorkerPc.step_shares hpc
          refine ⟨accounts.set i (a.after s.queue e), h.read, ?_, ?_,
            (taken_step hshares ha).trans h.shared, counted_step hshares ha hkeeps h.sent,
            h.bytesToSend, h.bitmaps, drained_step hshares hw h.drained,
            h.placed.worker hw hlive rfl rfl, h.confirmed⟩
          · rw [List.length_set, List.length_set]
            exact h.length_eq
          · intro j v b hv hb
            by_cases hij : i = j
            · subst hij
              rw [List.getElem?_set_self (List.getElem?_eq_some_iff.1 hw).1, Option.some.injEq] at hv
              rw [List.getElem?_set_self (List.getElem?_eq_some_iff.1 ha).1, Option.some.injEq] at hb
              subst hv hb
              exact hkeeps.step hpc
            · rw [List.getElem?_set_ne hij] at hv hb
              exact h.keeps j v b hv hb

/-- Where every bitmap parses the queue is what is needed, and where it is there they all do. -/
theorem needed_of_buildQueue {offered : List (SourceFile × FileEntry)} {queue : List WorkItem}
    {bytes : UInt64} (h : buildQueue accept offered 0 ([], 0) = .ok (queue, bytes)) :
    queue = neededItems accept offered 0 ∧ bytes = UInt64.ofNat (neededBytes accept offered) ∧
      ∀ x ∈ offered, x.2.fileId ∈ accept.acceptedFileIds →
        ∃ b, haveBitmap accept x.2 x.1.layout.count = .ok b := by
  have hbitmaps : ∀ x ∈ offered, x.2.fileId ∈ accept.acceptedFileIds →
      ∃ b, haveBitmap accept x.2 x.1.layout.count = .ok b := by
    intro x hx hid
    cases hhave : haveBitmap accept x.2 x.1.layout.count with
    | ok b => exact ⟨b, rfl⟩
    | error e =>
        obtain ⟨-, -, -, e', -, hfails⟩ := buildQueue_error ⟨x, hx, hid, e, hhave⟩ 0 ([], 0)
        cases h.symm.trans hfails
  have hok := buildQueue_ok hbitmaps 0 ([], 0)
  rw [h, Except.ok.injEq, Prod.mk.injEq, List.nil_append, UInt64.zero_add] at hok
  exact ⟨hok.1, hok.2, hbitmaps⟩

/-- **A step of `run` keeps the accounts**, and begins them over an `Accept`. -/
theorem Silent.main_step (h : s.Silent) {act : Act} (hact : .main act ∈ acts)
    (hstep : s.mainStep blake3 config files act = some s') :
    s'.Silent ∨ ∃ accept, s'.Serves config acts accept [] := by
  have hplace : ∀ {main : SenderPc}, s.main = main →
      (∃ error, main = .returned (.error error)) ∨ main = .opening ∨ main = .greeting ∨
        main = .offering ∨ main = .awaitingAccept := fun heq => heq ▸ h.main
  cases mainStep_moves hstep with
  | opened hmain hlen hoffered =>
      exact .inl ⟨h.workers, h.queue, h.sent, .inr (.inr (.inl rfl))⟩
  | notOpened hmain => exact .inl ⟨h.workers, h.queue, h.sent, .inl ⟨_, rfl⟩⟩
  | greets hmain => exact .inl ⟨h.workers, h.queue, h.sent, .inr (.inr (.inr (.inl rfl)))⟩
  | offers hmain => exact .inl ⟨h.workers, h.queue, h.sent, .inr (.inr (.inr (.inr rfl)))⟩
  | @accepted accept queue bytesToSend hmain hqueue =>
      obtain ⟨rfl, rfl, hbitmaps⟩ := needed_of_buildQueue hqueue
      refine .inr ⟨accept, hact, ?_, ?_, List.Perm.refl _, ?_, rfl, hbitmaps, ?_, ?_, nofun⟩
      · show 0 = s.workers.length
        rw [h.workers]
        rfl
      · intro i w a hw ha
        cases ha
      · exact h.sent
      · intro w hw
        rw [show s.workers = [] from h.workers] at hw
        cases hw
      · show s.workers.length + config.streamCount.toNat = config.streamCount.toNat
        rw [h.workers]
        exact Nat.zero_add _
  | refused hmain => exact .inl ⟨h.workers, h.queue, h.sent, .inl ⟨_, rfl⟩⟩
  | fails hmain => exact .inl ⟨h.workers, h.queue, h.sent, .inl ⟨_, rfl⟩⟩
  | spawns hmain | spawned hmain | joins hmain hw hpc | workerFailed hmain hw hpc
  | joined hmain hw | confirms hmain =>
      rcases hplace hmain with ⟨error, heq⟩ | heq | heq | heq | heq <;> cases heq

theorem Serves.main_step (h : s.Serves config acts accept accounts) {act : Act}
    (hact : .main act ∈ acts) (hstep : s.mainStep blake3 config files act = some s') :
    ∃ accounts', s'.Serves config acts accept accounts' := by
  have hplaced := h.placed
  have hplaced' := hplaced.main_step hstep
  unfold Placed at hplaced
  cases mainStep_moves hstep with
  | opened hmain hlen hoffered =>
      rw [hmain] at hplaced
      exact hplaced.elim
  | notOpened hmain | greets hmain | offers hmain | refused hmain =>
      rw [hmain] at hplaced
      exact hplaced.elim
  | accepted hmain hqueue =>
      rw [hmain] at hplaced
      exact hplaced.elim
  | @spawns left hmain =>
      refine ⟨accounts ++ [.fresh], h.read, ?_, ?_, ?_, ?_, h.bytesToSend, h.bitmaps, ?_, hplaced',
        nofun⟩
      · show (accounts ++ [Account.fresh]).length = (s.workers ++ [SendWorker.fresh]).length
        rw [List.length_append, List.length_append, h.length_eq]
        rfl
      · intro i w a hw ha
        rcases Nat.lt_or_ge i s.workers.length with hlt | hge
        · rw [List.getElem?_append_left hlt] at hw
          rw [List.getElem?_append_left (h.length_eq ▸ hlt)] at ha
          exact h.keeps i w a hw ha
        · rw [List.getElem?_append_right hge] at hw
          rw [List.getElem?_append_right (h.length_eq ▸ hge), h.length_eq] at ha
          rw [List.getElem?_singleton] at hw ha
          split at hw
          · next hlast =>
              rw [if_pos hlast] at ha
              cases hw
              cases ha
              exact SendWorker.keeps_fresh _ _
          · cases hw
      · simpa [Account.fresh] using h.shared
      · simpa [Account.fresh] using h.sent
      · intro w hw hfin
        rcases List.mem_append.1 hw with hold | hnew
        · exact h.drained w hold hfin
        · obtain rfl := List.mem_singleton.1 hnew
          cases hfin.1
  | @confirms body hmain =>
      refine ⟨accounts, h.read, h.length_eq, h.keeps, h.shared, h.sent, h.bytesToSend, h.bitmaps,
        h.drained, hplaced', fun n hn => ?_⟩
      cases body with
      | complete m =>
          cases hn
          exact ⟨m, hact, rfl⟩
      | _ => cases hn
  | _ =>
      exact ⟨accounts, h.read, h.length_eq, h.keeps, h.shared, h.sent, h.bytesToSend, h.bitmaps,
        h.drained, hplaced', nofun⟩

end Sender

/-! ## What is needed -/

/-- The `Accept` asks for the chunk: its file was offered and is accepted, and the bitmap reported for
    it leaves the chunk out. -/
def WorkItem.Wanted (accept : ManifestAccept) (offered : List (SourceFile × FileEntry))
    (item : WorkItem) : Prop :=
  ∃ x b, offered[item.fileIndex]? = some x ∧ x.2.fileId ∈ accept.acceptedFileIds ∧
    haveBitmap accept x.2 x.1.layout.count = .ok b ∧ item.chunkIndex < x.1.layout.count ∧
    b.has item.chunkIndex = false

section Needed

variable {accept : ManifestAccept} {offered : List (SourceFile × FileEntry)} {item : WorkItem}

theorem held_eq_some {x : SourceFile × FileEntry} {b : ChunkBitmap} :
    held accept x = some b ↔ x.2.fileId ∈ accept.acceptedFileIds ∧
      haveBitmap accept x.2 x.1.layout.count = .ok b := by
  unfold held
  by_cases hid : x.2.fileId ∈ accept.acceptedFileIds
  · rw [if_pos hid, toOption_eq_some]
    exact ⟨fun h => ⟨hid, h⟩, And.right⟩
  · rw [if_neg hid]
    exact ⟨nofun, fun h => absurd h.1 hid⟩

theorem mem_needed_iff_wanted :
    item ∈ neededItems accept offered 0 ↔ item.Wanted accept offered := by
  rw [mem_neededItems]
  constructor
  · rintro ⟨k, x, b, hidx, hx, hb, hmem⟩
    obtain rfl : item.fileIndex = k := by omega
    obtain ⟨hid, hhave⟩ := held_eq_some.1 hb
    obtain ⟨hlt, hclear⟩ := ChunkBitmap.mem_missingChunks.1 hmem
    exact ⟨x, b, hx, hid, hhave, count_of_held hb ▸ hlt, hclear⟩
  · rintro ⟨x, b, hx, hid, hhave, hlt, hclear⟩
    have hb := held_eq_some.2 ⟨hid, hhave⟩
    refine ⟨item.fileIndex, x, b, by omega, hx, hb, ChunkBitmap.mem_missingChunks.2 ⟨?_, hclear⟩⟩
    exact (count_of_held hb).symm ▸ hlt

theorem WorkItem.size_eq {x : SourceFile × FileEntry} (hx : offered[item.fileIndex]? = some x)
    (hi : item.chunkIndex < x.1.layout.count) :
    item.size offered = x.1.layout.len item.chunkIndex := by
  rw [WorkItem.size, chunkOf_ok_iff.2 ⟨x, hx, hi, rfl, rfl⟩]
  exact x.1.length_chunk hi

theorem WorkItem.Before.ne {a b : WorkItem} (h : a.Before b) : a ≠ b := by
  rintro rfl
  rcases h with h | ⟨-, h⟩
  · exact Nat.lt_irrefl _ h
  · exact Nat.lt_irrefl _ h

/-- The bytes needed are those of the items needed. -/
theorem neededBytes_eq (accept : ManifestAccept) (offered : List (SourceFile × FileEntry)) :
    neededBytes accept offered
      = ((neededItems accept offered 0).map (WorkItem.size offered)).sum := by
  suffices hfrom : ∀ (rest pre : List (SourceFile × FileEntry)),
      neededBytes accept rest
        = ((neededItems accept rest pre.length).map (WorkItem.size (pre ++ rest))).sum from
    hfrom offered []
  intro rest
  induction rest with
  | nil => exact fun _ => rfl
  | cons x rest ih =>
      intro pre
      have hhead : neededOf x (held accept x) = ((fileItems pre.length (held accept x)).map
          (WorkItem.size (pre ++ x :: rest))).sum := by
        cases hheld : held accept x with
        | none => rfl
        | some b =>
            simp only [neededOf, fileItems, Option.elim_some, ChunkBitmap.missingBytes, List.map_map]
            refine congrArg List.sum (List.map_congr_left fun i hi => ?_)
            have hlt := (ChunkBitmap.mem_missingChunks.1 hi).1
            rw [count_of_held hheld] at hlt
            have hx : (pre ++ x :: rest)[pre.length]? = some x := by simp
            have hsize : WorkItem.size (pre ++ x :: rest) ⟨pre.length, i⟩ = x.1.layout.len i :=
              WorkItem.size_eq hx hlt
            exact hsize.symm
      have htail := ih (pre ++ [x])
      rw [List.length_append, List.length_singleton, List.append_assoc, List.singleton_append]
        at htail
      rw [neededItems, List.map_append, List.sum_append, ← hhead, ← htail]
      rfl

end Needed

/-! ## Whole runs -/

/-- What the sender has done since it has read this `Accept`. -/
structure Sender.SentFor (config : Config) (acts : List SenderAct) (accept : ManifestAccept)
    (accounts : List Account) (s : Sender) : Prop where
  read : .main (.reads (.accept accept)) ∈ acts
  length_eq : accounts.length = s.workers.length
  /-- a stream carries the chunks its worker has taken, one after the other, and at least those it
      has counted -/
  streams : ∀ (i : Nat) (w : SendWorker) (a : Account), s.workers[i]? = some w →
    accounts[i]? = some a → a.counted <+: a.taken ∧
      a.counted.flatMap (WorkItem.wire config.frameSize.toNat s.offered) <+: w.stream.written ∧
      w.stream.written <+: a.taken.flatMap (WorkItem.wire config.frameSize.toNat s.offered)
  /-- no chunk is taken twice, by one worker or by two -/
  once : (accounts.flatMap Account.taken).Nodup
  wanted : ∀ item ∈ accounts.flatMap Account.taken, item.Wanted accept s.offered
  sent : s.sent
    = UInt64.ofNat ((accounts.flatMap Account.counted).map (WorkItem.size s.offered)).sum
  sent_le : ((accounts.flatMap Account.counted).map (WorkItem.size s.offered)).sum
    ≤ neededBytes accept s.offered
  bytesToSend : s.bytesToSend = UInt64.ofNat (neededBytes accept s.offered)
  /-- over `Ok` everything that was asked for is sent, if there is a stream for it -/
  complete : ∀ n, s.main = .returned (.ok n) →
    (∃ m, .main (.reads (.complete m)) ∈ acts ∧ n = max m s.bytesToSend) ∧
      (config.streamCount ≠ 0 → s.sent = s.bytesToSend ∧
        ∀ item, item.Wanted accept s.offered → item ∈ accounts.flatMap Account.counted)

namespace Sender

variable {blake3 : Blake3} {config : Config} {files : List OutgoingFile} {acts : List SenderAct}
  {accept : ManifestAccept} {accounts : List Account} {s s' : Sender}

/-- Every account is that of a worker. -/
theorem Serves.exists_worker (h : s.Serves config acts accept accounts) {a : Account}
    (ha : a ∈ accounts) : ∃ w ∈ s.workers, w.Keeps config.frameSize.toNat s.offered a := by
  obtain ⟨i, hi, rfl⟩ := List.mem_iff_getElem.1 ha
  have hlt : i < s.workers.length := h.length_eq ▸ hi
  exact ⟨s.workers[i], List.getElem_mem hlt, h.keeps i _ _ (List.getElem?_eq_getElem hlt)
    (List.getElem?_eq_getElem hi)⟩

/-- Where all workers have ended well everything taken is counted. -/
theorem Serves.all_counted (h : s.Serves config acts accept accounts)
    (hended : ∀ w ∈ s.workers, w.pc = .ended (.ok ())) :
    accounts.flatMap Account.counted = accounts.flatMap Account.taken := by
  refine List.flatMap_congr fun a ha => ?_
  obtain ⟨w, hw, hkeeps⟩ := h.exists_worker ha
  have hhand := hkeeps.in_hand (by rw [hended w hw]; rfl)
  rw [hended w hw] at hhand
  exact (hhand.trans (List.append_nil _)).symm

/-- What is counted is no more than what is taken. -/
theorem sum_counted_le {size : WorkItem → Nat} (h : ∀ a ∈ accounts, a.counted <+: a.taken) :
    ((accounts.flatMap Account.counted).map size).sum
      ≤ ((accounts.flatMap Account.taken).map size).sum := by
  induction accounts with
  | nil => exact Nat.le_refl _
  | cons a accounts ih =>
      obtain ⟨more, hmore⟩ := h a List.mem_cons_self
      have hrest := ih fun b hb => h b (List.mem_cons_of_mem _ hb)
      simp only [List.flatMap_cons, List.map_append, List.sum_append, ← hmore]
      omega

/-- What is counted is a part of what is needed. -/
theorem Serves.counted_le (h : s.Serves config acts accept accounts) :
    ((accounts.flatMap Account.counted).map (WorkItem.size s.offered)).sum
      ≤ neededBytes accept s.offered := by
  have hshared := (h.shared.map (WorkItem.size s.offered)).sum_eq
  rw [List.map_append, List.sum_append] at hshared
  have hle : ((accounts.flatMap Account.counted).map (WorkItem.size s.offered)).sum
      ≤ ((accounts.flatMap Account.taken).map (WorkItem.size s.offered)).sum := by
    refine sum_counted_le fun a ha => ?_
    obtain ⟨w, -, hkeeps⟩ := h.exists_worker ha
    exact hkeeps.counted
  rw [neededBytes_eq]
  omega

theorem Serves.sentFor (h : s.Serves config acts accept accounts) :
    s.SentFor config acts accept accounts := by
  have hordered := ordered_neededItems accept s.offered 0
  have hnodup : (accounts.flatMap Account.taken ++ s.queue).Nodup :=
    h.shared.nodup_iff.2 (hordered.imp WorkItem.Before.ne)
  refine ⟨h.read, h.length_eq, fun i w a hw ha => ?_, hnodup.of_append_left, fun item hitem => ?_,
    h.sent, h.counted_le, h.bytesToSend, fun n hn => ⟨h.confirmed n hn, fun hstreams => ?_⟩⟩
  · have hkeeps := h.keeps i w a hw ha
    exact ⟨hkeeps.counted, hkeeps.whole, hkeeps.within⟩
  · exact mem_needed_iff_wanted.1 (h.shared.subset (List.mem_append_left _ hitem))
  · have hplaced := h.placed
    simp only [Placed, hn] at hplaced
    obtain ⟨hlen, hended⟩ := hplaced
    have hall := h.all_counted hended
    have hqueue : s.queue = [] := by
      have hpos : 0 < s.workers.length := by
        rw [hlen]
        exact Nat.pos_of_ne_zero fun hzero => hstreams (UInt8.toNat_inj.1 hzero)
      refine h.drained _ (List.getElem_mem hpos) ?_
      rw [hended _ (List.getElem_mem hpos)]
      exact ⟨rfl, rfl⟩
    have hshared := h.shared
    rw [hqueue, List.append_nil] at hshared
    refine ⟨?_, fun item hitem => ?_⟩
    · rw [h.sent, h.bytesToSend, hall, neededBytes_eq, (hshared.map _).sum_eq]
    · rw [hall]
      exact hshared.symm.subset (mem_needed_iff_wanted.2 hitem)

/-- The sources offered are the files, in order. -/
def From (blake3 : Blake3) (config : Config) (files : List OutgoingFile) (s : Sender) : Prop :=
  ∀ (i : Nat) (x : SourceFile × FileEntry), s.offered[i]? = some x →
    ∃ f, files[i]? = some f ∧ OfferedAs blake3 config.chunkSize f i x

theorem From.step (h : s.From blake3 config files) {a : SenderAct}
    (hstep : s.step blake3 config files a = some s') : s'.From blake3 config files := by
  cases a with
  | worker i io =>
      have hoffered : s'.offered = s.offered := by
        simp only [Sender.step, workerStep] at hstep
        split at hstep
        · cases hstep
        · split at hstep
          · cases hstep
          · cases hstep
            rfl
      unfold From
      rw [hoffered]
      exact h
  | main act =>
      cases mainStep_moves hstep with
      | @opened ios offered hmain hlen hoffered =>
          obtain ⟨hcount, hall⟩ := openSources_ok hlen hoffered
          intro i x hx
          have hi : i < files.length := hcount ▸ (List.getElem?_eq_some_iff.1 hx).1
          obtain ⟨y, hy, hyoff⟩ := hall i files[i] (List.getElem?_eq_getElem hi)
          obtain rfl : y = x := Option.some.inj (hy.symm.trans hx)
          exact ⟨files[i], List.getElem?_eq_getElem hi, Nat.zero_add i ▸ hyoff⟩
      | _ => exact h

/-- **A step of the sender.** -/
theorem kept_step {a : SenderAct} (ha : a ∈ acts)
    (h : s.Silent ∨ ∃ accept accounts, s.Serves config acts accept accounts)
    (hstep : s.step blake3 config files a = some s') :
    s'.Silent ∨ ∃ accept accounts, s'.Serves config acts accept accounts := by
  rcases h with hsilent | ⟨accept, accounts, hserves⟩
  · cases a with
    | main act =>
        rcases hsilent.main_step ha hstep with h | ⟨accept, h⟩
        · exact .inl h
        · exact .inr ⟨accept, [], h⟩
    | worker i io =>
        simp only [Sender.step, workerStep, hsilent.workers, List.getElem?_nil] at hstep
        cases hstep
  · cases a with
    | main act =>
        obtain ⟨accounts', h⟩ := hserves.main_step ha hstep
        exact .inr ⟨accept, accounts', h⟩
    | worker i io =>
        obtain ⟨accounts', h⟩ := hserves.worker_step hstep
        exact .inr ⟨accept, accounts', h⟩

end Sender

/-- **The sender sends what the `Accept` asks for, and that once.** Whatever the receiver answers,
    whichever calls fail and in whatever order the workers run: until an `Accept` is read there is no
    data stream, and from then on the streams carry the frames of chunks it asks for, no chunk twice,
    out of the files to be sent; over `Ok` the receiver has said that it is done, and they carry all of
    these chunks, unless the sender is configured with no stream at all. -/
theorem sender_keeps_to_accept {blake3 : Blake3} {config : Config} {files : List OutgoingFile}
    {acts : List SenderAct} {s : Sender}
    (h : Sender.init.runs blake3 config files acts = some s) :
    s.From blake3 config files ∧
      ((s.workers = [] ∧ ∀ n, s.main ≠ .returned (.ok n)) ∨
        ∃ accept accounts, s.SentFor config acts accept accounts) := by
  have hsilent : Sender.init.Silent := ⟨rfl, rfl, rfl, .inr (.inl rfl)⟩
  refine ⟨?_, ?_⟩
  · exact Run.invariant (I := Sender.From blake3 config files) (fun _ _ _ hI hstep => hI.step hstep)
      (fun i x hx => by cases hx) h
  · have hkept := Run.invariant_of (C := fun _ a => a ∈ acts)
      (fun _ _ _ hI ha hstep => Sender.kept_step ha hI hstep) (.inl hsilent)
      (Run.Meets.of_forall fun a ha => ha) h
    rcases hkept with hsilent | ⟨accept, accounts, hserves⟩
    · refine .inl ⟨hsilent.workers, fun n hn => ?_⟩
      rcases hsilent.main with ⟨error, heq⟩ | heq | heq | heq | heq <;> cases hn.symm.trans heq
    · exact .inr ⟨accept, accounts, hserves.sentFor⟩

/-- One file of one byte, sent to a receiver that holds nothing of it and confirms. -/
def oneByteSending : List SenderAct :=
  [.main (.opens [{ opens := true, stats := true, maps := true }]), .main .next, .main .next,
    .main (.reads (.accept { acceptedFileIds := [0], progress := [] })), .main .next, .main .next] ++
  List.replicate 9 (.worker 0 .next) ++ [.main .next, .main .next, .main (.reads (.complete 1))]

theorem sender_keeps_to_accept_oneByte :
    ∃ s accept accounts, Sender.init.runs oneByteParties.blake3 oneByteParties.senderConfig
        oneByteParties.files oneByteSending = some s ∧
      s.SentFor oneByteParties.senderConfig oneByteSending accept accounts ∧
      s.From oneByteParties.blake3 oneByteParties.senderConfig oneByteParties.files := by
  have hruns : (Sender.init.runs oneByteParties.blake3 oneByteParties.senderConfig
      oneByteParties.files oneByteSending).any Sender.succeeded = true := by
    decide +kernel
  obtain ⟨s, hs, hconfirmed⟩ := (Option.any_eq_true _ _).1 hruns
  obtain ⟨hfrom, ⟨-, hnot⟩ | ⟨accept, accounts, hsent⟩⟩ := sender_keeps_to_accept hs
  · unfold Sender.succeeded at hconfirmed
    split at hconfirmed
    · next n hn => exact absurd hn (hnot n)
    · cases hconfirmed
  · exact ⟨s, accept, accounts, hs, hsent, hfrom⟩

end AetherLink
