import AetherLink.Lib.Tally
import AetherLink.Proofs.Names

set_option autoImplicit false

/-! # A worker cannot be made to fail

Whatever arrives on its stream, a worker's buffer never outgrows its chunk (`Worker.Snug`), and what
it adds to the counter and to the bytes since the last checkpoint it has first read as payload
(`Session.Paid`). So none of the indices and sums of `drain_stream` is ever out of range. -/

namespace AetherLink

/-! ## The buffer -/

/-- The places where the buffer holds the whole chunk. -/
def WorkerPc.Full : WorkerPc → Prop
  | .header => False
  | .payload _ => False
  | .ended _ => False
  | _ => True

/-- The buffer fits the chunk in progress. -/
structure Worker.Snug (w : Worker) : Prop where
  empty : w.current = none → w.buf = []
  top : w.pc = .header → ∀ c, w.current = some c → w.buf.length < c.expectedLen
  filling : ∀ n, w.pc = .payload n → ∀ c, w.current = some c → w.buf.length + n ≤ c.expectedLen
  full : w.pc.Full → ∀ c, w.current = some c → w.buf.length = c.expectedLen
  bounded : ∀ c, w.current = some c → w.buf.length ≤ c.expectedLen
  busy : w.pc ≠ .header → (∀ r, w.pc ≠ .ended r) → ∃ c, w.current = some c
  written : ∀ done, w.pc = .write done → done ≤ w.buf.length

namespace Worker.Snug

variable {w w' : Worker}

theorem fresh : Worker.fresh.Snug where
  empty := fun _ => rfl
  top := fun _ _ h => by cases h
  filling := fun _ h => by cases h
  full := fun h => h.elim
  bounded := fun _ h => by cases h
  busy := fun h => absurd rfl h
  written := fun _ h => by cases h

theorem finishChunk (w : Worker) : w.finishChunk.Snug where
  empty := fun _ => rfl
  top := fun _ _ h => by cases h
  filling := fun _ h => by cases h
  full := fun h => h.elim
  bounded := fun _ h => by cases h
  busy := fun h => absurd rfl h
  written := fun _ h => by cases h

theorem stop (h : w.Snug) (hcur : w'.current = w.current) (hbuf : w'.buf = w.buf)
    {r : Except Error Unit} (hpc : w'.pc = .ended r) : w'.Snug := by
  refine ⟨fun hc => ?_, fun hp => ?_, fun _ hp => ?_, fun hp => ?_, fun c hc => ?_,
    fun _ hr => absurd hpc (hr r), fun _ hp => ?_⟩
  · rw [hbuf]
    exact h.empty (hcur ▸ hc)
  · rw [hpc] at hp
    cases hp
  · rw [hpc] at hp
    cases hp
  · rw [hpc] at hp
    exact hp.elim
  · rw [hbuf]
    exact h.bounded c (hcur ▸ hc)
  · rw [hpc] at hp
    cases hp

/-- A worker with a whole chunk goes on with it. -/
theorem goOn (h : w.Snug) (hfull : w.pc.Full) (hcur : w'.current = w.current) (hbuf : w'.buf = w.buf)
    (hfull' : w'.pc.Full)
    (hwritten : ∀ done, w'.pc = .write done → done ≤ w.buf.length) : w'.Snug := by
  have hbusy : ∃ c, w.current = some c := by
    refine h.busy (fun heq => ?_) fun r heq => ?_
    · rw [heq] at hfull
      exact hfull.elim
    · rw [heq] at hfull
      exact hfull.elim
  refine ⟨fun hc => ?_, fun hp => ?_, fun n hp => ?_, fun _ c hc => ?_, fun c hc => ?_, fun _ _ => ?_,
    fun done hp => ?_⟩
  · rw [hbuf]
    exact h.empty (hcur ▸ hc)
  · rw [hp] at hfull'
    exact hfull'.elim
  · rw [hp] at hfull'
    exact hfull'.elim
  · rw [hbuf]
    exact h.full hfull c (hcur ▸ hc)
  · rw [hbuf]
    exact h.bounded c (hcur ▸ hc)
  · rw [hcur]
    exact hbusy
  · rw [hbuf]
    exact hwritten done hp

/-- **A worker's step keeps the buffer within the chunk.** -/
theorem step {p : Params} {env : Env} {e : Effect} (h : w.Snug) (hmove : WorkerMove p env w w' e) :
    w'.Snug := by
  cases hmove with
  | skips hpc hlen hdec htype =>
      exact ⟨h.empty, h.top, h.filling, h.full, h.bounded, h.busy, h.written⟩
  | opens hpc hlen hdec htype hacc =>
      obtain ⟨s, hs, hwhich, hid, hfits⟩ := acceptFrame_ok hacc
      refine ⟨(fun hc => by cases hc), (fun hp => by cases hp), fun n hp c hc => ?_,
        fun hp => hp.elim, fun c hc => ?_, fun _ _ => ⟨_, rfl⟩, (fun _ hp => by cases hp)⟩
      · cases hp
        obtain rfl := Option.some.inj hc
        exact hfits
      · obtain rfl := Option.some.inj hc
        exact Nat.le_trans (Nat.le_add_right _ _) hfits
  | closes hpc hshort heof hcur => exact h.stop rfl rfl rfl
  | fails inbox e hpc hrun => exact h.stop rfl rfl rfl
  | @buffers c n hpc hcur hn =>
      have hlen : (w.buf ++ w.inbox.take n).length = w.buf.length + n := by
        rw [List.length_append, List.length_take, Nat.min_eq_left hn]
      have hle := h.filling n hpc c hcur
      refine ⟨fun hc => ?_, fun hp d hd => ?_, fun m hp => ?_, fun hp d hd => ?_, fun d hd => ?_,
        fun _ _ => ⟨c, hcur⟩, fun done hp => ?_⟩
      · rw [hcur] at hc
        cases hc
      · obtain rfl := Option.some.inj (hcur.symm.trans hd)
        split at hp
        · cases hp
        · next hne =>
            rw [hlen] at hne ⊢
            omega
      · split at hp <;> cases hp
      · obtain rfl := Option.some.inj (hcur.symm.trans hd)
        split at hp
        · next heq => exact heq
        · exact hp.elim
      · obtain rfl := Option.some.inj (hcur.symm.trans hd)
        rw [hlen]
        exact hle
      · split at hp <;> cases hp
  | verifies hpc hcur hs hdigest =>
      refine h.goOn (by rw [hpc]; trivial) rfl rfl trivial fun done hp => ?_
      cases hp
      exact Nat.zero_le _
  | writes hpc hcur hs hn hfits =>
      refine h.goOn (by rw [hpc]; trivial) rfl rfl trivial fun done hp => ?_
      cases hp
      exact hfits
  | reports hpc =>
      refine h.goOn (by rw [hpc]; trivial) rfl rfl ?_ fun done hp => ?_
      · split <;> trivial
      · split at hp <;> cases hp
  | notDue hpc hoff => exact finishChunk w
  | notYet hpc hcur hs hlt => exact finishChunk w
  | lockTaken hpc hcur hs htaken => exact finishChunk w
  | releases hpc hcur => exact finishChunk w
  | givesUp hpc hcur => exact h.stop rfl rfl rfl
  | written hpc => exact h.goOn (by rw [hpc]; trivial) rfl rfl trivial fun _ hp => by cases hp
  | marks hpc hcur hs hset =>
      exact h.goOn (by rw [hpc]; trivial) rfl rfl trivial fun _ hp => by cases hp
  | counts hpc hcur => exact h.goOn (by rw [hpc]; trivial) rfl rfl trivial fun _ hp => by cases hp
  | announces hpc hcur hs =>
      exact h.goOn (by rw [hpc]; trivial) rfl rfl trivial fun _ hp => by cases hp
  | comesDue hpc hcur hs hge =>
      exact h.goOn (by rw [hpc]; trivial) rfl rfl trivial fun _ hp => by cases hp
  | locks hpc hcur hs hfree =>
      exact h.goOn (by rw [hpc]; trivial) rfl rfl trivial fun _ hp => by cases hp
  | resets hpc hcur => exact h.goOn (by rw [hpc]; trivial) rfl rfl trivial fun _ hp => by cases hp
  | checkpoints hpc hcur hs hmove =>
      exact h.goOn (by rw [hpc]; trivial) rfl rfl trivial fun _ hp => by cases hp
  | checkpointed hpc hcur hs hmove =>
      exact h.goOn (by rw [hpc]; trivial) rfl rfl trivial fun _ hp => by cases hp

/-- What arrives waits in the inbox. -/
theorem arrives (h : w.Snug) (inbox : List UInt8) (closed : Option Closing) :
    ({ w with inbox := inbox, closed := closed } : Worker).Snug :=
  ⟨h.empty, h.top, h.filling, h.full, h.bounded, h.busy, h.written⟩

end Worker.Snug

/-! ## What has been read and what has been added up -/

/-- The payload bytes the worker's next step reads. -/
def Worker.reads (w : Worker) : Nat :=
  match w.pc with
  | .payload n => if n ≤ w.inbox.length then n else 0
  | _ => 0

/-- The payload bytes a step of the session reads. -/
def Session.payloadOf (s : Session) : SessionAct → Nat
  | .worker i _ => (s.workers[i]?).elim 0 Worker.reads
  | _ => 0

/-- The payload bytes read in a run. -/
def Session.payloadBytes (p : Params) (s : Session) (as : List SessionAct) : Nat :=
  Run.total (Session.step p) Session.payloadOf s as

/-- How far a worker has got with its chunk. -/
def WorkerPc.rank : WorkerPc → Nat
  | .header => 0
  | .payload _ => 0
  | .verify => 1
  | .write _ => 2
  | .mark => 3
  | .count _ => 4
  | .report _ _ => 5
  | .announce => 6
  | .due => 7
  | .tryLock => 8
  | .reset => 9
  | .checkpoint _ => 10
  | .release _ => 11
  | .ended _ => 12

/-- The bytes in the buffer of a worker that has got no further than `k`. -/
def Worker.held (k : Nat) (w : Worker) : Nat :=
  if w.pc.rank ≤ k then w.buf.length else 0

/-- What the effect adds to the counter. -/
def Effect.counted : Effect → Nat
  | .count bytes => bytes.toNat
  | _ => 0

theorem Env.counter_apply_le (env : Env) (e : Effect) :
    (env.apply e).counter.toNat ≤ env.counter.toNat + e.counted := by
  cases e with
  | count bytes =>
      have hadd : (env.counter + bytes).toNat ≤ env.counter.toNat + bytes.toNat := by
        rw [UInt64.toNat_add]
        exact Nat.mod_le _ _
      exact hadd
  | _ => exact Nat.le_add_right _ _

/-- Only `setSince` touches the bytes since the last checkpoint. -/
theorem Effect.since_onFile {e : Effect} (h : ∀ id bytes, e ≠ .setSince id bytes) (id : UInt64)
    (s : FileState) : (e.onFile id s).sinceCheckpoint = s.sinceCheckpoint := by
  cases e with
  | setBit id' index =>
      simp only [onFile]
      split
      · split <;> rfl
      · rfl
  | setSince id' bytes => exact absurd rfl (h id' bytes)
  | setLock id' b =>
      simp only [onFile]
      split <;> rfl
  | _ => rfl

theorem toNat_ofNat_le (n : Nat) : (UInt64.ofNat n).toNat ≤ n := by
  rw [UInt64.toNat_ofNat']
  exact Nat.mod_le _ _

section

variable {p : Params} {env : Env} {w w' : Worker} {e : Effect}

theorem CheckpointMove.counted {blake3 : Blake3} {d : FileSystem} {s : FileState} {pc : CheckpointPc}
    {next : CheckpointNext} (h : CheckpointMove blake3 d s pc next e) :
    e.counted = 0 ∧ ∀ id bytes, e ≠ .setSince id bytes := by
  cases h <;> exact ⟨rfl, fun _ _ heq => by cases heq⟩

theorem MainMove.counted {pc pc' : MainPc} (h : MainMove p env pc pc' e) :
    e.counted = 0 ∧ ∀ id bytes, e ≠ .setSince id bytes := by
  cases h with
  | saving error todo hs hmove => exact hmove.counted
  | saved error todo hs hmove => exact hmove.counted
  | shelving hs hmove => exact hmove.counted
  | shelved hs hmove => exact hmove.counted
  | aborts hs he => rcases he with rfl | rfl <;> exact ⟨rfl, fun _ _ heq => by cases heq⟩
  | drops todo hs he => rcases he with rfl | rfl <;> exact ⟨rfl, fun _ _ heq => by cases heq⟩
  | dropsTmp todo hs he => rcases he with rfl | rfl <;> exact ⟨rfl, fun _ _ heq => by cases heq⟩
  | _ => exact ⟨rfl, fun _ _ heq => by cases heq⟩

theorem Worker.held_le_length (k : Nat) (w : Worker) : w.held k ≤ w.buf.length := by
  rw [held]
  split
  · exact Nat.le_refl _
  · exact Nat.zero_le _

theorem Worker.held_of_nil {k : Nat} (hbuf : w.buf = []) : w.held k = 0 := by
  have hle := w.held_le_length k
  rw [hbuf] at hle
  exact Nat.le_zero.1 hle

theorem Worker.held_of_le {k : Nat} (hpc : w.pc.rank ≤ k) : w.held k = w.buf.length :=
  if_pos hpc

theorem Worker.held_of_lt {k : Nat} (hpc : k < w.pc.rank) : w.held k = 0 :=
  if_neg (Nat.not_le.2 hpc)

theorem Worker.held_mono {k : Nat} (hbuf : w'.buf = w.buf) (hpc : w.pc.rank ≤ w'.pc.rank) :
    w'.held k ≤ w.held k + w.reads := by
  refine Nat.le_trans ?_ (Nat.le_add_right _ _)
  rw [held, held, hbuf]
  split
  · next hle => rw [if_pos (Nat.le_trans hpc hle)]
  · exact Nat.zero_le _

/-- **A worker's buffer grows by what it reads.** -/
theorem WorkerMove.held_le (hmove : WorkerMove p env w w' e) {k : Nat} (hk : k < 12) :
    w'.held k ≤ w.held k + w.reads := by
  have hstopped : ∀ {w'' : Worker}, w''.pc.rank = 12 → w''.held k ≤ w.held k + w.reads := fun h =>
    Nat.le_trans (Nat.le_of_eq (Worker.held_of_lt (h.symm ▸ hk))) (Nat.zero_le _)
  have hfinished : w.finishChunk.held k ≤ w.held k + w.reads :=
    Nat.le_trans (Nat.le_of_eq (Worker.held_of_nil rfl)) (Nat.zero_le _)
  cases hmove with
  | skips hpc hlen hdec htype => exact Worker.held_mono rfl (Nat.le_refl _)
  | opens hpc hlen hdec htype hacc =>
      obtain ⟨s, hs, hwhich, hid, hfits⟩ := acceptFrame_ok hacc
      rcases hwhich with ⟨-, hbuf⟩ | ⟨-, hbuf, -⟩
      · exact Worker.held_mono hbuf (by rw [hpc]; exact Nat.zero_le _)
      · exact Nat.le_trans (Nat.le_of_eq (Worker.held_of_nil hbuf)) (Nat.zero_le _)
  | closes hpc hshort heof hcur => exact hstopped rfl
  | fails inbox e hpc hrun => exact hstopped rfl
  | @buffers c n hpc hcur hn =>
      have hold : w.held k = w.buf.length :=
        Worker.held_of_le (by rw [hpc]; exact Nat.zero_le _)
      have hreads : w.reads = n := by
        rw [Worker.reads, hpc]
        exact if_pos hn
      rw [hold, hreads]
      refine Nat.le_trans (Worker.held_le_length k _) (Nat.le_of_eq ?_)
      rw [List.length_append, List.length_take, Nat.min_eq_left hn]
  | writes hpc hcur hs hn hfits => exact Worker.held_mono rfl (by rw [hpc]; exact Nat.le_refl _)
  | @reports complete done hpc =>
      refine Worker.held_mono rfl ?_
      rw [hpc]
      cases complete <;> simp [WorkerPc.rank]
  | notDue hpc hoff => exact hfinished
  | notYet hpc hcur hs hlt => exact hfinished
  | lockTaken hpc hcur hs htaken => exact hfinished
  | releases hpc hcur => exact hfinished
  | givesUp hpc hcur => exact hstopped rfl
  | checkpoints hpc hcur hs hmove =>
      exact Worker.held_mono rfl (by rw [hpc]; exact Nat.le_refl _)
  | verifies hpc hcur hs hdigest => exact Worker.held_mono rfl (by simp [hpc, WorkerPc.rank])
  | written hpc => exact Worker.held_mono rfl (by simp [hpc, WorkerPc.rank])
  | marks hpc hcur hs hset => exact Worker.held_mono rfl (by simp [hpc, WorkerPc.rank])
  | counts hpc hcur => exact Worker.held_mono rfl (by simp [hpc, WorkerPc.rank])
  | announces hpc hcur hs => exact Worker.held_mono rfl (by simp [hpc, WorkerPc.rank])
  | comesDue hpc hcur hs hge => exact Worker.held_mono rfl (by simp [hpc, WorkerPc.rank])
  | locks hpc hcur hs hfree => exact Worker.held_mono rfl (by simp [hpc, WorkerPc.rank])
  | resets hpc hcur => exact Worker.held_mono rfl (by simp [hpc, WorkerPc.rank])
  | checkpointed hpc hcur hs hmove => exact Worker.held_mono rfl (by simp [hpc, WorkerPc.rank])

/-- **A worker counts what it has read.** -/
theorem WorkerMove.held_counted (h : w.Snug) (hmove : WorkerMove p env w w' e) :
    w'.held 4 + e.counted ≤ w.held 4 + w.reads := by
  by_cases hcount : e.counted = 0
  · rw [hcount]
    exact hmove.held_le (by decide)
  · cases hmove with
    | @counts c complete hpc hcur =>
        have hfull : w.buf.length = c.expectedLen := h.full (by rw [hpc]; trivial) c hcur
        have hold : w.held 4 = w.buf.length := Worker.held_of_le (by simp [hpc, WorkerPc.rank])
        have hadd : (Effect.count (UInt64.ofNat c.expectedLen)).counted ≤ c.expectedLen :=
          toNat_ofNat_le _
        rw [Worker.held_of_lt (by simp [WorkerPc.rank]), hold, hfull]
        omega
    | checkpoints hpc hcur hs hmove => exact absurd hmove.counted.1 hcount
    | checkpointed hpc hcur hs hmove => exact absurd hmove.counted.1 hcount
    | _ => exact absurd rfl hcount

/-- **A worker adds to the bytes since the last checkpoint what it has read.** -/
theorem WorkerMove.held_since (h : w.Snug) (hmove : WorkerMove p env w w' e) {id : UInt64}
    {s : FileState} (hs : env.files.lookup id = some s) :
    w'.held 7 + (e.onFile id s).sinceCheckpoint.toNat
      ≤ w.held 7 + w.reads + s.sinceCheckpoint.toNat := by
  have hle := hmove.held_le (k := 7) (by decide)
  by_cases hsince : ∀ id bytes, e ≠ .setSince id bytes
  · rw [Effect.since_onFile hsince]
    omega
  · -- a whole chunk is added, or all is forgotten
    have hadd : ∀ {c : Current} {st : FileState}, w.pc = .due → w.current = some c →
        env.files.lookup c.fileId = some st → w'.held 7 = 0 →
        w'.held 7 + ((Effect.setSince c.fileId
          (st.sinceCheckpoint + UInt64.ofNat c.expectedLen)).onFile id s).sinceCheckpoint.toNat
          ≤ w.held 7 + w.reads + s.sinceCheckpoint.toNat := by
      intro c st hpc hcur hst hzero
      have hfull : w.buf.length = c.expectedLen := h.full (by rw [hpc]; trivial) c hcur
      have hold : w.held 7 = w.buf.length := Worker.held_of_le (by simp [hpc, WorkerPc.rank])
      rw [hzero, hold, hfull]
      simp only [Effect.onFile]
      split
      · next heq =>
          obtain rfl := Option.some.inj (hs.symm.trans (heq ▸ hst))
          have hof := toNat_ofNat_le c.expectedLen
          have hmod : (s.sinceCheckpoint + UInt64.ofNat c.expectedLen).toNat
              ≤ s.sinceCheckpoint.toNat + (UInt64.ofNat c.expectedLen).toNat := by
            rw [UInt64.toNat_add]
            exact Nat.mod_le _ _
          simp only
          omega
      · omega
    cases hmove with
    | notYet hpc hcur hst hlt => exact hadd hpc hcur hst (Worker.held_of_nil rfl)
    | comesDue hpc hcur hst hge =>
        exact hadd hpc hcur hst (Worker.held_of_lt (by simp [WorkerPc.rank]))
    | @resets c hpc hcur =>
        have hzero : ((Effect.setSince c.fileId 0).onFile id s).sinceCheckpoint.toNat
            ≤ s.sinceCheckpoint.toNat := by
          simp only [Effect.onFile]
          split
          · exact Nat.zero_le _
          · exact Nat.le_refl _
        exact Nat.add_le_add hle hzero
    | checkpoints hpc hcur hst hmove => exact absurd hmove.counted.2 hsince
    | checkpointed hpc hcur hst hmove => exact absurd hmove.counted.2 hsince
    | _ => exact absurd (fun _ _ heq => by cases heq) hsince

end

/-! ## The session -/

/-- Every worker's buffer fits its chunk, and what has been added to the counter and to the bytes
    since a checkpoint, with what is held to be added, has been read before: `n` bytes. -/
structure Session.Paid (seed : Nat) (n : Nat) (s : Session) : Prop where
  snug : ∀ w ∈ s.workers, w.Snug
  counter : s.env.counter.toNat + (s.workers.map (Worker.held 4)).sum ≤ seed + n
  since : ∀ id st, s.env.files.lookup id = some st →
    st.sinceCheckpoint.toNat + (s.workers.map (Worker.held 7)).sum ≤ n

namespace Session.Paid

variable {seed n : Nat} {p : Params} {s s' : Session}

/-- An effect that counts nothing, while no worker goes on. -/
theorem apply (h : s.Paid seed n) {e : Effect} (hcounted : e.counted = 0)
    (hsince : ∀ id bytes, e ≠ .setSince id bytes) (hworkers : s'.workers = s.workers)
    (henv : s'.env = s.env.apply e) : s'.Paid seed n := by
  refine ⟨by rw [hworkers]; exact h.snug, ?_, fun id st hst => ?_⟩
  · have hle := s.env.counter_apply_le e
    have hold := h.counter
    rw [hworkers, henv]
    omega
  · rw [henv] at hst
    obtain ⟨st₀, hst₀, rfl, -⟩ := Env.lookup_apply hst
    rw [hworkers, Effect.since_onFile hsince]
    exact h.since id st₀ hst₀

/-- Bytes or an end arrive on a stream. -/
theorem arrives (h : s.Paid seed n) {i : Nat} {w w' : Worker} (hw : s.workers[i]? = some w)
    (hbuf : w'.buf = w.buf) (hcur : w'.current = w.current) (hpc : w'.pc = w.pc) :
    ({ s with workers := s.workers.set i w' } : Session).Paid seed n := by
  have hsnug : w'.Snug := by
    have hold := h.snug w (List.mem_of_getElem? hw)
    refine ⟨?_, ?_, ?_, ?_, ?_, ?_, ?_⟩
    all_goals
      simp only [hbuf, hcur, hpc]
    · exact hold.empty
    · exact hold.top
    · exact hold.filling
    · exact hold.full
    · exact hold.bounded
    · exact hold.busy
    · exact hold.written
  have hheld : ∀ k, ((s.workers.set i w').map (Worker.held k)).sum
      = (s.workers.map (Worker.held k)).sum := by
    intro k
    have hset := List.sum_map_set hw w' (Worker.held k)
    have hsame : w'.held k = w.held k := by rw [Worker.held, Worker.held, hbuf, hpc]
    omega
  refine ⟨fun v hv => ?_, ?_, fun id st hst => ?_⟩
  · rcases List.mem_or_eq_of_mem_set hv with hold | rfl
    · exact h.snug v hold
    · exact hsnug
  · rw [hheld]
    exact h.counter
  · rw [hheld]
    exact h.since id st hst

/-- A worker takes a step and pays for it with what it reads. -/
theorem worker (h : s.Paid seed n) {i : Nat} {w w' : Worker} {e : Effect}
    (hw : s.workers[i]? = some w) (hmove : WorkerMove p s.env w w' e) :
    ({ s with env := s.env.apply e, workers := s.workers.set i w' } : Session).Paid seed
      (n + w.reads) := by
  have hsnug := h.snug w (List.mem_of_getElem? hw)
  refine ⟨fun v hv => ?_, ?_, fun id st hst => ?_⟩
  · rcases List.mem_or_eq_of_mem_set hv with hold | rfl
    · exact h.snug v hold
    · exact hsnug.step hmove
  · have hset := List.sum_map_set hw w' (Worker.held 4)
    have hheld := hmove.held_counted hsnug
    have hle := s.env.counter_apply_le e
    have hold := h.counter
    simp only
    omega
  · obtain ⟨st₀, hst₀, rfl, -⟩ := Env.lookup_apply hst
    have hset := List.sum_map_set hw w' (Worker.held 7)
    have hheld := hmove.held_since hsnug hst₀
    have hold := h.since id st₀ hst₀
    simp only
    omega

/-- **Every step pays for itself.** -/
theorem step {a : SessionAct} (h : s.Paid seed n) (hstep : s.step p a = some s') :
    s'.Paid seed (n + s.payloadOf a) := by
  obtain ⟨e, he, -⟩ := Session.step_moves hstep
  cases Session.stepEffect_cases he with
  | deliver hw hopen => exact h.arrives hw rfl rfl rfl
  | close hw hopen => exact h.arrives hw rfl rfl rfl
  | @worker i io w w' e hw hmove =>
      have hreads : s.payloadOf (.worker i io) = w.reads := by
        rw [Session.payloadOf, hw]
        rfl
      rw [hreads]
      exact h.worker hw (Worker.step_moves hmove)
  | accept hmain =>
      have hfresh : ∀ k, ((s.workers ++ [Worker.fresh]).map (Worker.held k)).sum
          = (s.workers.map (Worker.held k)).sum := by
        intro k
        have hzero : Worker.fresh.held k = 0 := Worker.held_of_nil rfl
        rw [List.map_append, List.sum_append, List.map_singleton, List.sum_singleton, hzero,
          Nat.add_zero]
      refine ⟨fun v hv => ?_, ?_, fun id st hst => ?_⟩
      · rcases List.mem_append.1 hv with hold | hnew
        · exact h.snug v hold
        · rw [List.mem_singleton] at hnew
          exact hnew ▸ Worker.Snug.fresh
      · rw [hfresh]
        exact h.counter
      · rw [hfresh]
        exact h.since id st hst
  | refuse hmain => exact ⟨h.snug, h.counter, h.since⟩
  | join hmain hended horder hnext => exact ⟨h.snug, h.counter, h.since⟩
  | main hmain =>
      obtain ⟨hcounted, hsince⟩ := (Session.mainStep_moves hmain).counted
      exact h.apply hcounted hsince rfl rfl

end Session.Paid

/-! ## Safety -/

/-- There is a digest for every chunk. -/
def Files.Hashed (files : Files) : Prop :=
  ∀ id s, files.lookup id = some s → s.chunkHashes.length = s.layout.count

theorem Files.Hashed.apply {env : Env} (h : env.files.Hashed) (e : Effect) :
    (env.apply e).files.Hashed := by
  intro id s hs
  obtain ⟨s₀, hs₀, rfl, -⟩ := Env.lookup_apply hs
  have hsame := e.sameFile_onFile id s₀
  rw [hsame.chunkHashes, hsame.layout]
  exact h id s₀ hs₀

/-- Nothing that the worker does next is out of range: the `unwrap` of `current`, the index into
    `chunk_hashes`, and each of the sums, of which those of lengths fit a 32-bit `usize`. -/
structure Worker.Safe (env : Env) (w : Worker) : Prop where
  /-- past the header there is a chunk in progress -/
  unwrap : w.pc ≠ .header → (∀ r, w.pc ≠ .ended r) → ∃ c, w.current = some c
  /-- it is a chunk of one of the files, with a digest, and the buffer fits it -/
  chunk : ∀ c, w.current = some c → ∃ s, env.files.lookup c.fileId = some s ∧ c.Of s ∧
    0 < c.expectedLen ∧ c.chunkIndex < s.chunkHashes.length ∧ w.buf.length ≤ c.expectedLen ∧
    c.expectedLen ≤ s.layout.chunkSize
  /-- between two chunks the buffer is empty -/
  empty : w.current = none → w.buf = []
  /-- at the top of the loop the chunk is not full -/
  top : w.pc = .header → ∀ c, w.current = some c → w.buf.length < c.expectedLen
  /-- `start + buf.len()` -/
  offset : ∀ c, w.current = some c → c.start + w.buf.length < 2 ^ 64
  /-- `buf.len() + header.length` -/
  frame : ∀ bytes header, FrameHeader.decode bytes = .ok header →
    w.buf.length + header.length.toNat < 2 ^ 32
  /-- the buffer is resized to this -/
  resize : ∀ n, w.pc = .payload n → ∀ c, w.current = some c → w.buf.length + n ≤ c.expectedLen
  /-- the offset of the next write -/
  write : ∀ done, w.pc = .write done → ∀ c, w.current = some c → c.start + done < 2 ^ 64
  /-- `counter.fetch_add(expected_len) + expected_len` -/
  counter : ∀ complete, w.pc = .count complete → ∀ c, w.current = some c →
    env.counter.toNat + c.expectedLen < 2 ^ 64
  /-- `before + added` -/
  since : w.pc = .due → ∀ c s, w.current = some c → env.files.lookup c.fileId = some s →
    s.sinceCheckpoint.toNat + c.expectedLen < 2 ^ 64

/-- A worker that is one of the session's holds no more than all of them. -/
theorem held_le_sum {s : Session} {w : Worker} (hw : w ∈ s.workers) (k : Nat) :
    w.held k ≤ (s.workers.map (Worker.held k)).sum :=
  List.single_le_sum (fun _ _ => Nat.zero_le _) _ (List.mem_map_of_mem hw)

theorem safe_of_paid {blake3 : Blake3} {s : Session} {seed n : Nat} (hpaid : s.Paid seed n)
    (hfits : s.Fits blake3) (hhashed : s.env.files.Hashed) (hseed : seed < 2 ^ 63) (hn : n < 2 ^ 63)
    {w : Worker} (hw : w ∈ s.workers) : w.Safe s.env := by
  have hsnug := hpaid.snug w hw
  have hchunk : ∀ c, w.current = some c → ∃ st, s.env.files.lookup c.fileId = some st ∧ c.Of st :=
    (hfits w hw).current
  have hfile : ∀ c, w.current = some c → c.start + c.expectedLen < 2 ^ 64 ∧
      c.expectedLen ≤ MAX_CHUNK_SIZE := by
    intro c hc
    obtain ⟨st, -, hof⟩ := hchunk c hc
    have hle := st.layout.start_add_len_le hof.index
    have hlt := st.layout.fileSize_lt
    have hlen := Nat.le_trans (st.layout.len_le c.chunkIndex) st.layout.le_max
    rw [hof.start_eq, hof.len_eq]
    exact ⟨by omega, hlen⟩
  have hbuf : w.buf.length ≤ MAX_CHUNK_SIZE := by
    cases hcur : w.current with
    | none =>
        rw [hsnug.empty hcur]
        exact Nat.zero_le _
    | some c => exact Nat.le_trans (hsnug.bounded c hcur) (hfile c hcur).2
  refine ⟨hsnug.busy, fun c hc => ?_, hsnug.empty, hsnug.top, fun c hc => ?_, fun bytes h hdec => ?_,
    hsnug.filling, fun done hpc c hc => ?_, fun complete hpc c hc => ?_, fun hpc c st hc hst => ?_⟩
  · obtain ⟨st, hst, hof⟩ := hchunk c hc
    refine ⟨st, hst, hof, ?_, ?_, hsnug.bounded c hc, ?_⟩
    · rw [hof.len_eq]
      exact st.layout.len_pos hof.index
    · rw [hhashed _ st hst]
      exact hof.index
    · rw [hof.len_eq]
      exact st.layout.len_le c.chunkIndex
  · have hle := hsnug.bounded c hc
    have hlt := (hfile c hc).1
    omega
  · have hlen : h.length.toNat ≤ MAX_FRAME_PAYLOAD := (FrameHeader.decode_ok hdec).2.1.length_le
    have hmax : MAX_CHUNK_SIZE + MAX_FRAME_PAYLOAD < 2 ^ 32 := by decide
    omega
  · have hle := hsnug.written done hpc
    have hbound := hsnug.bounded c hc
    have hlt := (hfile c hc).1
    omega
  · have hfull : w.buf.length = c.expectedLen := hsnug.full (by rw [hpc]; trivial) c hc
    have hheld : w.held 4 = w.buf.length := Worker.held_of_le (by simp [hpc, WorkerPc.rank])
    have hsum := held_le_sum hw 4
    have hcounter := hpaid.counter
    omega
  · have hfull : w.buf.length = c.expectedLen := hsnug.full (by rw [hpc]; trivial) c hc
    have hheld : w.held 7 = w.buf.length := Worker.held_of_le (by simp [hpc, WorkerPc.rank])
    have hsum := held_le_sum hw 7
    have hsince := hpaid.since _ st hst
    omega

/-! ## The start -/

/-- What the offer loop leaves to a session: nothing since a checkpoint, and a total that the digests
    of the offer bound. -/
structure Unspent (pre : List (FileEntry × EntryIo)) (st : OfferState) : Prop where
  since : ∀ id s, st.files.lookup id = some s → s.sinceCheckpoint = 0
  hashed : st.files.Hashed
  total : st.totalBytes.toNat * 32 ≤ (pre.map fun x => x.1.chunkHashes.length).sum * MAX_CHUNK_SIZE

theorem unspent_offerLoop {blake3 : Blake3} {config : Config} {outputDir : FilePath}
    {chunkSize : UInt32} {disk : FileSystem} {xs : List (FileEntry × EntryIo)} {st : OfferState}
    (h : offerLoop blake3 config outputDir chunkSize (.init disk) xs = .ok st) : Unspent xs st := by
  refine offerLoop_induct (P := Unspent) ⟨?_, ?_, ?_⟩ ?_ h
  · exact fun id s hs => by cases hs
  · exact fun id s hs => by cases hs
  · exact Nat.zero_le _
  · intro pre x st c st' hpre hcheck hopen
    obtain ⟨hc, -⟩ := checkEntry_ok hcheck
    obtain ⟨sink, b, hfiles, -, -, htotal, -⟩ := openEntry_answer hopen
    have hlookup : ∀ id s, st'.files.lookup id = some s →
        s = c.fileState sink b ∨ st.files.lookup id = some s := by
      intro id s hs
      rw [hfiles] at hs
      by_cases hid : id = x.1.fileId
      · rw [hid, AList.lookup_insert] at hs
        exact .inl (Option.some.inj hs).symm
      · rw [AList.lookup_insert_ne hid] at hs
        exact .inr hs
    refine ⟨fun id s hs => ?_, fun id s hs => ?_, ?_⟩
    · rcases hlookup id s hs with rfl | hold
      · rfl
      · exact hpre.since id s hold
    · rcases hlookup id s hs with rfl | hold
      · exact splitHashes_ok hc.hashes_ok
      · exact hpre.hashed id s hold
    · have hsize := hc.size_le_hashes
      have hadd : (st.totalBytes + x.1.sizeBytes).toNat
          ≤ st.totalBytes.toNat + x.1.sizeBytes.toNat := by
        rw [UInt64.toNat_add]
        exact Nat.mod_le _ _
      have hold := hpre.total
      rw [htotal, List.map_append, List.sum_append, List.map_singleton, List.sum_singleton,
        Nat.add_mul]
      omega

/-- **A worker cannot be made to panic or to hold more than a chunk**: in every state a session with
    an accepted offer can come to while fewer than `2 ^ 63` payload bytes are read, whatever arrives
    on its streams and however its steps interleave. -/
theorem drain_stream_safe {p : Params} {config : Config} {outputDir : FilePath} {chunkSize : UInt32}
    {disk : FileSystem} {xs : List (FileEntry × EntryIo)} {st : OfferState} {streamCount : UInt32}
    {as : List SessionAct} {s : Session}
    (h : offerLoop p.blake3 config outputDir chunkSize (.init disk) xs = .ok st)
    (hframe : (xs.map fun x => x.1.chunkHashes.length).sum ≤ MAX_FRAME_PAYLOAD)
    (hrun : (Session.start st streamCount).runs p as = some s)
    (hpayload : (Session.start st streamCount).payloadBytes p as < 2 ^ 63) :
    ∀ w ∈ s.workers, w.Safe s.env := by
  have hunspent := unspent_offerLoop h
  have hseed : (Session.start st streamCount).env.counter.toNat < 2 ^ 63 := by
    have htotal := Nat.le_trans hunspent.total (Nat.mul_le_mul_right MAX_CHUNK_SIZE hframe)
    have hmax : MAX_FRAME_PAYLOAD * MAX_CHUNK_SIZE < 2 ^ 63 := by decide
    rw [Session.start_counter]
    omega
  have hstart : (Session.start st streamCount).Paid
      (Session.start st streamCount).env.counter.toNat 0 := by
    refine ⟨fun w hw => absurd hw List.not_mem_nil, Nat.le_refl _, fun id fs hfs => ?_⟩
    rw [hunspent.since id fs hfs]
    exact Nat.le_refl _
  have hinv := Run.invariant_total Session.payloadOf
    (I := fun n s => s.Paid (Session.start st streamCount).env.counter.toNat n ∧ s.Fits p.blake3 ∧
      s.env.files.Hashed)
    (fun n s a s' hs hstep => by
      obtain ⟨e, -, hmove⟩ := Session.step_moves hstep
      refine ⟨hs.1.step hstep, hmove.fits hs.2.1, ?_⟩
      rw [hmove.env_eq]
      exact hs.2.2.apply e)
    ⟨hstart, (fun w hw => absurd hw List.not_mem_nil), hunspent.hashed⟩ hrun
  rw [Nat.zero_add] at hinv
  exact fun w hw => safe_of_paid hinv.1 hinv.2.1 hinv.2.2 hseed hpayload hw

/-- One file of one byte, up to the place where its byte is to be counted. -/
theorem drain_stream_safe_single :
    ∃ s : Session, (s.workers.map fun w => w.pc.rank) = [4] ∧
      ∀ w ∈ s.workers, w.Safe s.env := by
  obtain ⟨st, s, hoffer, hrun, hcheck⟩ := exists_run uncheckpointed singleOffer 1
    (singleRun.take 9) (fun st s => decide ((s.workers.map fun w => w.pc.rank) = [4] ∧
      (Session.start st 1).payloadBytes uncheckpointed (singleRun.take 9) < 2 ^ 63))
    (by decide +kernel)
  obtain ⟨hcount, hpayload⟩ := of_decide_eq_true hcheck
  exact ⟨s, hcount,
    drain_stream_safe (p := uncheckpointed) hoffer (by decide +kernel) hrun hpayload⟩

end AetherLink
