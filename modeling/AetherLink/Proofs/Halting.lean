import AetherLink.Lib.Halts
import AetherLink.Proofs.Delivery
import AetherLink.Proofs.Drain

set_option autoImplicit false

/-! # A transfer comes to an end

What is left to do of a transfer is a number and a list. The number counts the bytes still to be put
on a stream twice and those on their way once, with the turns the sender's `run` has still to take and
the streams the receiver has still to take or to see the end of (`Transfer.work`); the list has what
the receiver's `run` and each of its workers have left to do with the bytes they have. A receiving
worker that reads and writes draws on its own entry, and everything else on the number
(`Transfer.lighter`): in any order, and whatever calls fail. -/

namespace AetherLink

open Bytes Storage

/-! ## What the sender has left to do -/

/-- Where a sending worker is on its way to the end of its stream, from the end. -/
def SendWorkerPc.ahead : SendWorkerPc → Nat
  | .ended _ => 0
  | .draining => 1
  | .closing => 2
  | .popping => 3
  | .reporting _ => 4
  | .counting _ => 5
  | .header _ _ => 6
  | .part _ _ => 6

/-- With the bytes it has still to write of the chunk in hand. -/
def SendWorkerPc.work (frameSize : Nat) (offered : List (SourceFile × FileEntry))
    (pc : SendWorkerPc) : Nat :=
  pc.ahead + 2 * (pc.rest frameSize offered).length

/-- With the bytes written and not yet delivered. -/
def SendWorker.work (frameSize : Nat) (offered : List (SourceFile × FileEntry))
    (w : SendWorker) : Nat :=
  w.pc.work frameSize offered + (w.stream.written.length - w.stream.delivered)

/-- Taking a chunk up, and its frames. -/
def WorkItem.work (frameSize : Nat) (offered : List (SourceFile × FileEntry))
    (item : WorkItem) : Nat :=
  2 * (item.wire frameSize offered).length + 4

/-- The turns of `run`, over this many workers. A stream still to be established has a worker still to
    run. -/
def SenderPc.turns (workers : Nat) : SenderPc → Nat
  | .spawning left => workers + 5 * left + 3
  | .joining i => workers - i + 2
  | .confirming => 1
  | _ => 0

def Sender.work (frameSize : Nat) (s : Sender) : Nat :=
  s.main.turns s.workers.length + (s.queue.map (WorkItem.work frameSize s.offered)).sum +
    (s.workers.map (SendWorker.work frameSize s.offered)).sum

/-- The bytes an effect puts on the stream. -/
def SendEffect.bytes : SendEffect → List UInt8
  | .write bytes => bytes
  | _ => []

/-- It cuts a chunk into frames. -/
def SendWorkerPc.Cuts (pc : SendWorkerPc) : Prop :=
  ∃ item n, pc = .header item n ∨ pc = .part item n

/-- **A step of a sending worker** gets it on, by more than the bytes it writes; or it takes up a
    chunk. -/
theorem SendWorkerPc.step_work {frameSize : UInt32} {s : Sender} {pc pc' : SendWorkerPc}
    {io : SendIo} {e : SendEffect} (hcuts : pc.Cuts → 0 < frameSize.toNat)
    (h : pc.step frameSize s io = some (pc', e)) :
    (e ≠ .pop ∧ pc'.work frameSize.toNat s.offered + e.bytes.length
      < pc.work frameSize.toNat s.offered) ∨
      ∃ item rest, e = .pop ∧ pc = .popping ∧ s.queue = item :: rest ∧
        pc'.work frameSize.toNat s.offered
          ≤ (SendWorkerPc.header item 0).work frameSize.toNat s.offered := by
  cases pc with
  | popping =>
      cases io with
      | fail k => cases h
      | next =>
          simp only [step] at h
          split at h
          · cases h
            exact Or.inl ⟨by simp, Nat.lt_succ_self _⟩
          · next item rest hq =>
              refine Or.inr ⟨item, rest, ?_⟩
              split at h
              · cases h
                exact ⟨rfl, rfl, hq, Nat.zero_le _⟩
              · split at h
                · cases h
                  exact ⟨rfl, rfl, hq, Nat.zero_le _⟩
                · cases h
                  exact ⟨rfl, rfl, hq, Nat.le_refl _⟩
  | header item n =>
      have hpos := hcuts ⟨item, n, .inl rfl⟩
      simp only [step] at h
      split at h
      · cases h
      · next offset payload hchunk =>
          by_cases hlt : n * frameSize.toNat < payload.length
          · -- the header of the next frame, or a part of it
            have hhead := FrameHeader.length_encode (partHeader frameSize.toNat item offset n
              (slice payload (n * frameSize.toNat) frameSize.toNat))
            have hrest : ((SendWorkerPc.header item n).rest frameSize.toNat s.offered).length
                = HEADER_LEN + ((SendWorkerPc.part item n).rest frameSize.toNat s.offered).length := by
              simp only [rest, WorkItem.framesFrom_eq hchunk, WorkItem.part_eq hchunk,
                framesFrom_of_lt item offset hpos hlt, frame, List.length_append, hhead]
              omega
            rw [HEADER_LEN] at hhead hrest
            rw [partOf_of_lt hlt] at h
            cases io with
            | next =>
                cases h
                refine Or.inl ⟨by simp, ?_⟩
                simp only [work, ahead, SendEffect.bytes, hhead, hrest]
                omega
            | fail k =>
                cases h
                refine Or.inl ⟨by simp, ?_⟩
                have hdone : ((SendWorkerPc.ended (.error (.io "writing frame header"))).rest
                    frameSize.toNat s.offered).length = 0 := rfl
                simp only [work, ahead, SendEffect.bytes, List.length_take, hhead, hrest, hdone]
                omega
          · rw [partOf_of_le (Nat.not_lt.1 hlt)] at h
            cases io with
            | fail k => cases h
            | next =>
                cases h
                refine Or.inl ⟨by simp, ?_⟩
                simp only [work, ahead, rest, SendEffect.bytes, List.length_nil]
                omega
  | part item n =>
      have hpos := hcuts ⟨item, n, .inr rfl⟩
      simp only [step] at h
      split at h
      · cases h
      · next offset payload hchunk =>
          by_cases hlt : n * frameSize.toNat < payload.length
          · have hpart : 0 < (slice payload (n * frameSize.toNat) frameSize.toNat).length := by
              rw [length_slice]
              omega
            rw [partOf_of_lt hlt] at h
            cases io with
            | next =>
                cases h
                refine Or.inl ⟨by simp, ?_⟩
                simp only [work, ahead, rest, SendEffect.bytes, WorkItem.part_eq hchunk,
                  List.length_append]
                omega
            | fail k =>
                cases h
                refine Or.inl ⟨by simp, ?_⟩
                simp only [work, ahead, rest, SendEffect.bytes, WorkItem.part_eq hchunk,
                  List.length_append, List.length_take, List.length_nil]
                omega
          · rw [partOf_of_le (Nat.not_lt.1 hlt)] at h
            cases io <;> cases h
  | counting item =>
      cases io with
      | fail k => cases h
      | next =>
          simp only [step] at h
          split at h
          · cases h
          · cases h
            exact Or.inl ⟨by simp, Nat.lt_succ_self _⟩
  | reporting done =>
      cases io with
      | fail k => cases h
      | next =>
          cases h
          exact Or.inl ⟨by simp, Nat.lt_succ_self _⟩
  | closing =>
      cases io with
      | next =>
          cases h
          exact Or.inl ⟨by simp, Nat.lt_succ_self _⟩
      | fail k =>
          cases h
          exact Or.inl ⟨by simp, Nat.succ_pos _⟩
  | draining =>
      cases h
      exact Or.inl ⟨by simp, Nat.lt_succ_self _⟩
  | ended r => cases io <;> cases h

/-- A turn of the sender's `run` past the answer. -/
theorem Sender.mainStep_work {c : Parties} {s s' : Sender} {act : Act} (frameSize : Nat)
    (h : s.mainStep c.blake3 c.senderConfig c.files act = some s') (hserving : s.main.Serving) :
    s'.work frameSize < s.work frameSize := by
  cases mainStep_moves h with
  | opened hmain hlen hoffered =>
      rw [hmain] at hserving
      exact hserving.elim
  | notOpened hmain | greets hmain | offers hmain | refused hmain =>
      rw [hmain] at hserving
      exact hserving.elim
  | accepted hmain hqueue =>
      rw [hmain] at hserving
      exact hserving.elim
  | @spawns left hmain =>
      have hfresh : SendWorker.fresh.work frameSize s.offered = 3 := rfl
      simp only [work, hmain, SenderPc.turns, List.length_append, List.length_singleton,
        List.map_append, List.map_singleton, List.sum_append, List.sum_singleton, hfresh]
      omega
  | spawned hmain =>
      simp only [work, hmain, SenderPc.turns]
      omega
  | joins hmain hw hpc =>
      have hi := (List.getElem?_eq_some_iff.1 hw).1
      simp only [work, hmain, SenderPc.turns]
      omega
  | workerFailed hmain hw hpc =>
      simp only [work, hmain, SenderPc.turns]
      omega
  | joined hmain hw =>
      simp only [work, hmain, SenderPc.turns]
      omega
  | confirms hmain =>
      simp only [work, hmain, SenderPc.turns]
      omega
  | fails hne =>
      cases hmain : s.main with
      | spawning left | joining i | confirming =>
          simp only [work, hmain, SenderPc.turns]
          omega
      | returned r =>
          rw [mainStep, hmain] at h
          cases h
      | _ =>
          rw [hmain] at hserving
          exact hserving.elim

/-- A step of a sending worker. -/
theorem Sender.workerStep_work {frameSize : UInt32} {s s' : Sender} {i : Nat} {io : SendIo}
    (hcuts : ∀ sw ∈ s.workers, sw.pc.Cuts → 0 < frameSize.toNat)
    (h : s.workerStep frameSize i io = some s') :
    s'.work frameSize.toNat < s.work frameSize.toNat := by
  obtain ⟨sw, pc, e, hsw, hpc, rfl⟩ := workerStep_ok h
  have hset := List.sum_map_set hsw { stream := e.onStream sw.stream, pc := pc }
    (SendWorker.work frameSize.toNat s.offered)
  have hoffered : ∀ e, (s.apply e).offered = s.offered := fun _ => rfl
  have hmain : ∀ e, (s.apply e).main = s.main := fun _ => rfl
  simp only [work, List.length_set, hoffered, hmain]
  rcases SendWorkerPc.step_work (hcuts sw (List.mem_of_getElem? hsw)) hpc with
    ⟨hpop, hless⟩ | ⟨item, rest, rfl, hpopping, hq, hnext⟩
  · have hsame : (s.apply e).queue = s.queue := by
      cases e with
      | pop => exact absurd rfl hpop
      | _ => rfl
    have hstream : (e.onStream sw.stream).written.length - (e.onStream sw.stream).delivered
        ≤ sw.stream.written.length - sw.stream.delivered + e.bytes.length := by
      cases e with
      | write bytes =>
          simp only [SendEffect.onStream, SendEffect.bytes, List.length_append]
          omega
      | _ => exact Nat.le_add_right _ _
    rw [hsame]
    have hnew : ({ stream := e.onStream sw.stream, pc := pc } : SendWorker).work frameSize.toNat
        s.offered < sw.work frameSize.toNat s.offered := by
      simp only [SendWorker.work]
      omega
    omega
  · have hold : sw.work frameSize.toNat s.offered
        = 3 + (sw.stream.written.length - sw.stream.delivered) := by
      rw [SendWorker.work, hpopping]
      rfl
    have hnew : ({ stream := SendEffect.pop.onStream sw.stream, pc := pc } :
        SendWorker).work frameSize.toNat s.offered
          ≤ 6 + 2 * (item.wire frameSize.toNat s.offered).length +
            (sw.stream.written.length - sw.stream.delivered) :=
      Nat.add_le_add_right hnext _
    have htail : (s.apply .pop).queue = rest := by
      show s.queue.tail = rest
      rw [hq, List.tail_cons]
    rw [htail, hq, List.map_cons, List.sum_cons, WorkItem.work]
    omega

/-! ## What the receiver has left to do -/

def CheckpointPc.ahead (pc : CheckpointPc) : Nat :=
  (WorkerPc.checkpoint pc).ahead

/-- What is left to write of the record. -/
def CheckpointPc.left : CheckpointPc → Nat
  | .writeTmp bitmap _ done => recordLength bitmap - done
  | _ => 0

/-- What `run` has left to do over this many files: the files to go over, its place at the current
    one, and what is left to write of its record. -/
def MainPc.toDo (files : Nat) : MainPc → Nat × Nat × Nat
  | .spawning left => (files + 4 + left, 0, 0)
  | .joining => (files + 3, 0, 0)
  | .failing _ todo => (todo.length + 1, 0, 0)
  | .saving _ _ todo pc => (todo.length + 1, pc.ahead + 1, pc.left)
  | .checking todo => (todo.length + 2, 0, 0)
  | .syncing _ todo => (todo.length + 2, 3, 0)
  | .dropping _ todo => (todo.length + 2, 2, 0)
  | .droppingTmp _ todo => (todo.length + 2, 1, 0)
  | .shelving _ pc => (1, pc.ahead + 1, pc.left)
  | .aborting _ => (1, 1, 0)
  | .completing => (1, 0, 0)
  | .returned _ => (0, 0, 0)

/-- A checkpoint that goes on has less to do. -/
theorem CheckpointMove.less {blake3 : Blake3} {d : FileSystem} {s : FileState}
    {pc pc' : CheckpointPc} {e : Effect} (h : CheckpointMove blake3 d s pc (.goOn pc') e) :
    Prod.Lex (· < ·) (· < ·) (pc'.ahead + 1, pc'.left) (pc.ahead + 1, pc.left) := by
  cases h with
  | @writes snapshot tmp done n hn hfits =>
      rw [Resume.length_record] at hfits
      refine Prod.Lex.right _ ?_
      simp only [CheckpointPc.left, recordLength]
      omega
  | _ => exact Prod.Lex.left _ _ (by simp [CheckpointPc.ahead, WorkerPc.ahead])

/-- A checkpoint is never without something ahead. -/
theorem CheckpointPc.ahead_pos (pc : CheckpointPc) : 0 < pc.ahead := by
  cases pc <;> exact Nat.succ_pos _

/-- **Every turn of `run` leaves less to do**, however its calls go. -/
theorem MainMove.less {p : Params} {env : Env} {pc pc' : MainPc} {e : Effect} (files : Nat)
    (h : MainMove p env pc pc' e) : Less (pc'.toDo files) (pc.toDo files) := by
  cases h with
  | spawned => exact Prod.Lex.left _ _ (Nat.lt_succ_self _)
  | failed error => exact Prod.Lex.left _ _ Nat.one_pos
  | saves error id todo => exact Prod.Lex.left _ _ (Nat.lt_succ_self _)
  | saving error todo hs hmove => exact Prod.Lex.right _ hmove.less
  | saved error todo hs hmove => exact Prod.Lex.right _ (Prod.Lex.left _ _ (Nat.succ_pos _))
  | allChecked => exact Prod.Lex.left _ _ (Nat.lt_succ_self _)
  | complete todo hs hc => exact Prod.Lex.left _ _ (Nat.lt_succ_self _)
  | @incomplete id todo s hs hc =>
      refine Prod.Lex.left _ _ ?_
      show 1 < todo.length + 1 + 2
      omega
  | shelving hs hmove => exact Prod.Lex.right _ hmove.less
  | @shelved id s pc r e hs hmove =>
      exact Prod.Lex.right _ (Prod.Lex.left _ _ (Nat.succ_lt_succ pc.ahead_pos))
  | aborts hs he => exact Prod.Lex.left _ _ Nat.one_pos
  | syncs todo hs => exact Prod.Lex.right _ (Prod.Lex.left _ _ (Nat.lt_succ_self _))
  | syncFails todo hs => exact Prod.Lex.left _ _ (Nat.succ_pos _)
  | drops todo hs he => exact Prod.Lex.right _ (Prod.Lex.left _ _ (Nat.lt_succ_self _))
  | dropsTmp todo hs he => exact Prod.Lex.right _ (Prod.Lex.left _ _ (Nat.lt_succ_self _))
  | completes => exact Prod.Lex.left _ _ Nat.one_pos
  | completeFails => exact Prod.Lex.left _ _ Nat.one_pos

/-- A turn of `run` accepts no stream. -/
theorem MainMove.left_eq {p : Params} {env : Env} {pc pc' : MainPc} {e : Effect}
    (h : MainMove p env pc pc' e) : pc'.left = pc.left := by
  cases h <;> rfl

/-- No effect adds a file or takes one away. -/
theorem Env.keys_apply (env : Env) (e : Effect) :
    (env.apply e).files.keys.length = env.files.keys.length := by
  refine ((List.perm_ext_iff_of_nodup (AList.keys_nodup _) (AList.keys_nodup _)).2
    fun id => ?_).length_eq
  rw [← AList.mem_keys, ← AList.mem_keys, ← AList.lookup_isSome, ← AList.lookup_isSome,
    apply_files, Effect.lookup_onFiles, Option.isSome_map]

/-- A stream of which the end is still to arrive. -/
def Worker.opened (w : Worker) : Nat :=
  w.closed.elim 1 fun _ => 0

namespace Session

/-- The streams still to be accepted, and the ends still to arrive. -/
def work (s : Session) : Nat :=
  2 * s.main.left + (s.workers.map Worker.opened).sum

/-- What `run` and each worker have left to do. -/
def toDo (s : Session) : List (Nat × Nat × Nat) :=
  s.main.toDo s.env.files.keys.length :: s.workers.map Worker.toDo

/-- One of them has less to do than it had. -/
theorem lighter_of_set {s : Session} {n : Nat} (hn : n = s.work) {i : Nat}
    {left left' : Nat × Nat × Nat} (hleft : s.toDo[i]? = some left) (h : Less left' left) :
    Run.Lighter Less (n, (s.toDo.set i left' : Multiset _)) (s.work, s.toDo) := by
  have hset := Run.lighter_of_set hn id hleft h
  rwa [List.map_id, List.map_id] at hset

/-- `run` takes a step. -/
theorem lighter_of_main {s : Session} {env : Env} {main : MainPc}
    (hkeys : env.files.keys.length = s.env.files.keys.length) (hleft : main.left = s.main.left)
    (hless : Less (main.toDo s.env.files.keys.length) (s.main.toDo s.env.files.keys.length)) :
    Run.Lighter Less (({ s with env := env, main := main } : Session).work,
      (({ s with env := env, main := main } : Session).toDo : Multiset _)) (s.work, s.toDo) := by
  have hset := s.lighter_of_set rfl (i := 0) rfl hless
  simpa only [toDo, work, hkeys, hleft, List.set_cons_zero] using hset

/-- **Every step but an arrival leaves less to do**, however its calls go. -/
theorem lighter {p : Params} {s s' : Session} {a : SessionAct} (ha : ∀ i bytes, a ≠ .deliver i bytes)
    (h : s.step p a = some s') :
    Run.Lighter Less (s'.work, (s'.toDo : Multiset _)) (s.work, s.toDo) := by
  obtain ⟨e, heff, -⟩ := step_moves h
  cases stepEffect_cases heff with
  | deliver hw hopen => exact absurd rfl (ha _ _)
  | @close i how w hw hopen =>
      refine Run.lighter_of_lt ?_ _ _
      have hopened := List.sum_map_set hw { w with closed := some how } Worker.opened
      have hbefore : w.opened = 1 := by
        rw [Worker.opened, hopen]
        rfl
      have hafter : ({ w with closed := some how } : Worker).opened = 0 := rfl
      simp only [work]
      omega
  | @accept left hspawning =>
      refine Run.lighter_of_lt ?_ _ _
      have hfresh : Worker.fresh.opened = 1 := rfl
      simp only [work, hspawning, MainPc.left, List.map_append, List.map_singleton,
        List.sum_append, List.sum_singleton, hfresh]
      omega
  | @refuse left error hspawning =>
      refine Run.lighter_of_lt ?_ _ _
      simp only [work, hspawning, MainPc.left]
      omega
  | @worker i io w w' e hw hstep =>
      have hmove := Worker.step_moves hstep
      -- its stream stays as open as it was
      have hopened : ((s.workers.set i w').map Worker.opened).sum
          = (s.workers.map Worker.opened).sum := by
        have hset := List.sum_map_set hw w' Worker.opened
        rw [Worker.opened, Worker.opened, hmove.closed_eq] at hset
        omega
      have hget : s.toDo[i + 1]? = some w.toDo := by
        rw [toDo, List.getElem?_cons_succ, List.getElem?_map, hw, Option.map_some]
      have hwork : Session.work { s with env := s.env.apply e, workers := s.workers.set i w' }
          = s.work := by
        simp only [work, hopened]
      have hset := s.lighter_of_set hwork hget hmove.less
      simpa only [toDo, Env.keys_apply, List.map_set, List.set_cons_succ] using hset
  | @join order main hjoining hended horder hnext =>
      have hless : main.left = 0 ∧ Less (main.toDo s.env.files.keys.length)
          (MainPc.joining.toDo s.env.files.keys.length) := by
        rw [← horder.length_eq]
        rcases hnext with ⟨error, -, rfl⟩ | ⟨-, rfl⟩ <;>
          exact ⟨rfl, Prod.Lex.left _ _ (by simp)⟩
      rw [← hjoining] at hless
      refine lighter_of_main rfl ?_ hless.2
      rw [hless.1, hjoining]
      rfl
  | main hstep =>
      have hmove := mainStep_moves hstep
      exact lighter_of_main (Env.keys_apply _ _) hmove.left_eq (hmove.less _)

end Session

/-! ## What the transfer has left to do -/

def Receiver.work : Receiver → Nat
  | .running _ _ s => s.work
  | _ => 0

def Receiver.toDo : Receiver → List (Nat × Nat × Nat)
  | .running _ _ s => s.toDo
  | _ => []

def Transfer.work (frameSize : Nat) (t : Transfer) : Nat :=
  t.sender.work frameSize + t.receiver.work

/-- What is left to do of a transfer. -/
def Transfer.toDo (frameSize : Nat) (t : Transfer) : Nat × Multiset (Nat × Nat × Nat) :=
  (t.work frameSize, (t.receiver.toDo : Multiset (Nat × Nat × Nat)))

/-- A step that gets a transfer on; the arrival of nothing does not. -/
def TransferAct.busy : TransferAct → Bool
  | .deliver _ 0 => false
  | _ => true

/-! ## Every step -/

namespace Transfer

variable {c : Parties} {t t' : Transfer} {frameSize : Nat}

theorem lighter_of_sender {sender : Sender} (read : Nat)
    (h : sender.work frameSize < t.sender.work frameSize) :
    Run.Lighter Less (({ t with sender := sender, read := read } : Transfer).toDo frameSize)
      (t.toDo frameSize) :=
  Run.lighter_of_lt (Nat.add_lt_add_right h _) _ _

theorem lighter_of_session {accept accept' : ManifestAccept} {totalBytes totalBytes' : UInt64}
    {s s' : Session} {p : Params} {act : SessionAct}
    (hreceiver : t.receiver = .running accept totalBytes s)
    (hact : ∀ i bytes, act ≠ .deliver i bytes) (hstep : s.step p act = some s') :
    Run.Lighter Less
      (({ t with receiver := .running accept' totalBytes' s' } : Transfer).toDo frameSize)
      (t.toDo frameSize) := by
  simp only [toDo, work, hreceiver]
  exact (Session.lighter hact hstep).add_left _

/-- **Every step leaves less to do**, once the sender has its answer. -/
theorem lighter {accept₀ : ManifestAccept} {totalBytes₀ : UInt64} {s₀ : Session} {a : TransferAct}
    (hrunning : t.receiver = .running accept₀ totalBytes₀ s₀) (hserving : t.sender.main.Serving)
    (hcuts : ∀ sw ∈ t.sender.workers, sw.pc.Cuts → 0 < c.senderConfig.frameSize.toNat)
    (hbusy : a.busy = true) (hmove : Transfer.Move c t a t') :
    Run.Lighter Less (t'.toDo c.senderConfig.frameSize.toNat)
      (t.toDo c.senderConfig.frameSize.toNat) := by
  cases hmove with
  | sender hact hstep => exact lighter_of_sender _ (Sender.mainStep_work _ hstep hserving)
  | reads hbody hstep => exact lighter_of_sender _ (Sender.mainStep_work _ hstep hserving)
  | sendWorker hstep => exact lighter_of_sender _ (Sender.workerStep_work hcuts hstep)
  | hello told hreceiver hbody => cases hrunning.symm.trans hreceiver
  | offer written hreceiver hbody hios => cases hrunning.symm.trans hreceiver
  | lost error hreceiver =>
      rcases hreceiver with hreceiver | ⟨n, hreceiver⟩ <;> cases hrunning.symm.trans hreceiver
  | session hreceiver hact htaken hstep =>
      exact lighter_of_session hreceiver (fun i => (hact i).1) hstep
  | @deliver i n sw accept totalBytes s s' hsw hn hreceiver hstep =>
      have hpositive : 0 < n := by
        cases n with
        | zero => cases hbusy
        | succ n => exact Nat.succ_pos n
      obtain ⟨e, heff, -⟩ := Session.step_moves hstep
      cases Session.stepEffect_cases heff with
      | @deliver i bytes w hw hopen =>
          refine Run.lighter_of_lt ?_ _ _
          have hset := List.sum_map_set hsw
            ⟨⟨sw.stream.written, sw.stream.delivered + n, sw.stream.shut⟩, sw.pc⟩
            (SendWorker.work c.senderConfig.frameSize.toNat t.sender.offered)
          have hless : SendWorker.work c.senderConfig.frameSize.toNat t.sender.offered
              ⟨⟨sw.stream.written, sw.stream.delivered + n, sw.stream.shut⟩, sw.pc⟩
              < sw.work c.senderConfig.frameSize.toNat t.sender.offered := by
            simp only [SendWorker.work]
            omega
          have hopened := List.sum_map_set hw
            { w with inbox := w.inbox ++ (sw.stream.written.drop sw.stream.delivered).take n }
            Worker.opened
          have hsame : ({ w with
              inbox := w.inbox ++ (sw.stream.written.drop sw.stream.delivered).take n } :
                Worker).opened = w.opened := rfl
          simp only [work, Sender.work, hreceiver, Receiver.work, Session.work, List.length_set]
          omega
  | eof hsw hshut hall hreceiver hstep => exact lighter_of_session hreceiver (by simp) hstep
  | cut hreceiver hstep => exact lighter_of_session hreceiver (by simp) hstep

end Transfer

end AetherLink
