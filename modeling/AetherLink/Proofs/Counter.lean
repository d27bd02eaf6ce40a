import AetherLink.Lib.Tally
import AetherLink.Proofs.Completion

set_option autoImplicit false

/-! # The byte counter

`bytes_written` is seeded with a whole chunk for every bit that is set, cut once to the size of the
offer; every chunk that is marked adds its own length. The seed is what is held exactly if no held
chunk is short, or nothing is missing; from then on the counter is what the bitmaps say, less the
chunks that are marked and not yet counted (`Session.Counting`). -/

namespace AetherLink

/-! ## Lengths of the chunks of one file -/

namespace ChunkBitmap

variable {b b' : ChunkBitmap} {l : ChunkLayout}

/-- A bit that is set adds its chunk to what is held. -/
theorem heldBytes_set (hb : b.Wf) {i : Nat} (hclear : b.has i = false) (h : b.set i = .ok b') :
    b'.heldBytes l = b.heldBytes l + l.len i := by
  rw [heldBytes, heldBytes, count_of_set h]
  exact sum_filter_range_set (lt_count_of_set h) hclear (has_of_set hb h) l.len

theorem heldBytes_le (h : b.count = l.count) : b.heldBytes l ≤ l.fileSize := by
  have := missingBytes_add_heldBytes h
  omega

/-- Nothing is missing of a complete file, and of no other. -/
theorem missingBytes_eq_zero_iff (hb : b.Wf) (h : b.count = l.count) :
    b.missingBytes l = 0 ↔ b.isComplete = true := by
  rw [hb.isComplete_iff, missingBytes, List.sum_eq_zero_iff_forall_eq_nat]
  constructor
  · intro hzero i hi
    by_contra hclear
    have hmem : i ∈ b.missingChunks := mem_missingChunks.2 ⟨hi, by simpa using hclear⟩
    have := hzero _ (List.mem_map_of_mem hmem)
    have := l.len_pos (h ▸ hi)
    omega
  · intro hall n hn
    obtain ⟨i, hi, rfl⟩ := List.mem_map.1 hn
    obtain ⟨hlt, hclear⟩ := mem_missingChunks.1 hi
    rw [hall i hlt] at hclear
    cases hclear

/-- What counting whole chunks counts too much: the part a short chunk lacks. -/
def excessBytes (b : ChunkBitmap) (l : ChunkLayout) : Nat :=
  (((List.range b.count).filter b.has).map fun i => l.chunkSize - l.len i).sum

/-- Counting a whole chunk for every bit counts what is held and the excess. -/
theorem setCount_mul_chunkSize (hb : b.Wf) :
    b.setCount * l.chunkSize = b.heldBytes l + b.excessBytes l := by
  rw [hb.setCount_eq, List.countP_eq_length_filter, heldBytes, excessBytes]
  induction (List.range b.count).filter b.has with
  | nil => simp
  | cons i is ih =>
      have := l.len_le i
      simp only [List.length_cons, List.map_cons, List.sum_cons]
      rw [Nat.succ_mul, ih]
      omega

theorem excessBytes_eq_zero_iff (hb : b.Wf) :
    b.excessBytes l = 0 ↔ ∀ i, b.has i = true → l.len i = l.chunkSize := by
  rw [excessBytes, List.sum_eq_zero_iff_forall_eq_nat]
  constructor
  · intro hzero i hi
    have hmem : i ∈ (List.range b.count).filter b.has :=
      List.mem_filter.2 ⟨List.mem_range.2 (hb.lt_count hi), hi⟩
    have := hzero _ (List.mem_map_of_mem (f := fun i => l.chunkSize - l.len i) hmem)
    have := l.len_le i
    omega
  · intro hall n hn
    obtain ⟨i, hi, rfl⟩ := List.mem_map.1 hn
    rw [hall i (List.mem_filter.1 hi).2, Nat.sub_self]

end ChunkBitmap

/-! ## Lengths of the chunks of all files -/

namespace Files

/-- The bytes of the chunks whose bit is set. -/
def heldBytes (files : Files) : Nat :=
  files.tally fun s => s.bitmap.heldBytes s.layout

def missingBytes (files : Files) : Nat :=
  files.tally fun s => s.bitmap.missingBytes s.layout

def excessBytes (files : Files) : Nat :=
  files.tally fun s => s.bitmap.excessBytes s.layout

def sizeBytes (files : Files) : Nat :=
  files.tally fun s => s.layout.fileSize

variable {files : Files}

theorem Sized.missingBytes_add_heldBytes (h : files.Sized) :
    files.missingBytes + files.heldBytes = files.sizeBytes := by
  rw [missingBytes, heldBytes, ← AList.tally_add]
  exact AList.tally_congr fun id s hs => ChunkBitmap.missingBytes_add_heldBytes (h id s hs).2

theorem Sized.complete_iff (h : files.Sized) :
    files.missingBytes = 0 ↔ ∀ id s, files.lookup id = some s → s.bitmap.isComplete = true := by
  rw [missingBytes, AList.tally_eq_zero_iff]
  exact forall₃_congr fun id s hs =>
    ChunkBitmap.missingBytes_eq_zero_iff (h id s hs).1 (h id s hs).2

theorem Sized.excessBytes_eq_zero_iff (h : files.Sized) :
    files.excessBytes = 0 ↔ ∀ id s, files.lookup id = some s → ∀ i, s.bitmap.has i = true →
      s.layout.len i = s.layout.chunkSize := by
  rw [excessBytes, AList.tally_eq_zero_iff]
  exact forall₃_congr fun id s hs => ChunkBitmap.excessBytes_eq_zero_iff (h id s hs).1

end Files

/-! ## The seed -/

/-- What the offer loop has added up. -/
structure Totalled (pre : List (FileEntry × EntryIo)) (st : OfferState) : Prop where
  totalBytes : st.totalBytes = UInt64.ofNat st.files.sizeBytes
  resumedBytes : st.resumedBytes =
    UInt64.ofNat (st.files.tally fun s => s.bitmap.setCount * s.layout.chunkSize)
  hashes : (st.files.tally fun s => s.layout.count * 32)
    = (pre.map fun x => x.1.chunkHashes.length).sum

section Offer

variable {blake3 : Blake3} {config : Config} {outputDir : FilePath} {chunkSize : UInt32}

/-- An entry under a new id adds its size, its bits and its digests. -/
theorem Totalled.step {pre : List (FileEntry × EntryIo)} {st st' : OfferState}
    {x : FileEntry × EntryIo} {c : Checked} (h : Totalled pre st)
    (hfresh : st.files.lookup x.1.fileId = none)
    (hcheck : checkEntry blake3 config outputDir chunkSize st.seenPaths x.1 = .ok c)
    (hopen : openEntry blake3 config chunkSize st x.1 c x.2 = .ok st') :
    Totalled (pre ++ [x]) st' := by
  obtain ⟨hc, -⟩ := checkEntry_ok hcheck
  obtain ⟨sink, b, hfiles, -, -, htotal, hresumed⟩ := openEntry_answer hopen
  obtain ⟨hsize, hchunk⟩ := ChunkLayout.new_ok hc.layout_ok
  refine ⟨?_, ?_, ?_⟩
  · rw [htotal, h.totalBytes, hfiles, Files.sizeBytes, Files.sizeBytes,
      AList.tally_insert_of_lookup_eq_none hfresh, Checked.fileState, hsize, UInt64.ofNat_add,
      UInt64.ofNat_toNat, UInt64.add_comm]
  · rw [hresumed, h.resumedBytes, hfiles, AList.tally_insert_of_lookup_eq_none hfresh,
      Checked.fileState, hchunk, UInt64.ofNat_add, UInt64.ofNat_mul, UInt64.ofNat_uInt32ToNat,
      UInt64.add_comm]
  · rw [hfiles, AList.tally_insert_of_lookup_eq_none hfresh, h.hashes, Checked.fileState,
      List.map_append, List.sum_append, List.map_singleton, List.sum_singleton,
      splitHashes_length hc.hashes_ok, Nat.add_comm]

/-- Under distinct ids every file of the offer is counted once. -/
theorem totalled_offerLoop {disk : FileSystem} {xs : List (FileEntry × EntryIo)} {st : OfferState}
    (h : offerLoop blake3 config outputDir chunkSize (.init disk) xs = .ok st)
    (hids : (xs.map fun x => x.1.fileId).Nodup) : Totalled xs st := by
  have hboth : Accepted blake3 outputDir chunkSize xs st ∧
      ((xs.map fun x => x.1.fileId).Nodup → Totalled xs st) := by
    refine offerLoop_induct (P := fun xs st => Accepted blake3 outputDir chunkSize xs st ∧
      ((xs.map fun x => x.1.fileId).Nodup → Totalled xs st)) ?_ ?_ h
    · exact ⟨⟨nofun, List.Pairwise.nil, nofun, fun _ => nofun, nofun, nofun⟩,
        fun _ => ⟨rfl, rfl, rfl⟩⟩
    · intro pre x s c s' hpre hcheck hopen
      refine ⟨hpre.1.step hcheck hopen, fun hnodup => ?_⟩
      rw [List.map_append, List.nodup_append] at hnodup
      obtain ⟨hids, -, hnew⟩ := hnodup
      refine (hpre.2 hids).step (Option.eq_none_iff_forall_ne_some.2 fun s hs => ?_) hcheck hopen
      obtain ⟨y, hy, hid, -⟩ := hpre.1.made _ s hs
      exact hnew _ (List.mem_map_of_mem hy) _ (by simp) hid
  exact hboth.2 hids

end Offer

/-- The digests of an offer that came in a control frame leave no room for a `u64` to overflow. -/
theorem Totalled.lt {pre : List (FileEntry × EntryIo)} {st : OfferState} (h : Totalled pre st)
    (hframe : (pre.map fun x => x.1.chunkHashes.length).sum ≤ MAX_FRAME_PAYLOAD)
    (hsized : st.files.Sized) : st.files.sizeBytes < 2 ^ 64 ∧
      (st.files.tally fun s => s.bitmap.setCount * s.layout.chunkSize) < 2 ^ 64 := by
  have hbound : (st.files.tally fun s => s.layout.count * 32 * MAX_CHUNK_SIZE) < 2 ^ 64 := by
    rw [AList.tally_mul, h.hashes]
    have := Nat.mul_le_mul_right MAX_CHUNK_SIZE hframe
    exact lt_of_le_of_lt this (by decide)
  have hcount : ∀ id s, st.files.lookup id = some s →
      s.layout.count * s.layout.chunkSize ≤ s.layout.count * 32 * MAX_CHUNK_SIZE := by
    intro id s hs
    exact Nat.mul_le_mul (by omega) s.layout.le_max
  refine ⟨lt_of_le_of_lt (AList.tally_le_tally fun id s hs => ?_) hbound,
    lt_of_le_of_lt (AList.tally_le_tally fun id s hs => ?_) hbound⟩
  · exact s.layout.fileSize_le.trans (hcount id s hs)
  · obtain ⟨hwf, hn⟩ := hsized id s hs
    have hle : s.bitmap.setCount ≤ s.layout.count := hn ▸ hwf.setCount_le
    exact (Nat.mul_le_mul_right _ hle).trans (hcount id s hs)

/-- **The seed.** What is held and the excess, cut to the size of the offer. -/
theorem Totalled.seed {pre : List (FileEntry × EntryIo)} {st : OfferState} (h : Totalled pre st)
    (hframe : (pre.map fun x => x.1.chunkHashes.length).sum ≤ MAX_FRAME_PAYLOAD)
    (hsized : st.files.Sized) (streamCount : UInt32) :
    (Session.start st streamCount).env.counter.toNat
      = min (st.files.heldBytes + st.files.excessBytes) st.files.sizeBytes ∧
    st.totalBytes.toNat = st.files.sizeBytes := by
  obtain ⟨hsize, hset⟩ := h.lt hframe hsized
  have hsum : (st.files.tally fun s => s.bitmap.setCount * s.layout.chunkSize)
      = st.files.heldBytes + st.files.excessBytes := by
    rw [Files.heldBytes, Files.excessBytes, ← AList.tally_add]
    exact AList.tally_congr fun id s hs => ChunkBitmap.setCount_mul_chunkSize (hsized id s hs).1
  have htotal : st.totalBytes.toNat = st.files.sizeBytes := by
    rw [h.totalBytes, UInt64.toNat_ofNat', Nat.mod_eq_of_lt hsize]
  refine ⟨?_, htotal⟩
  rw [Session.start_counter, htotal, h.resumedBytes, UInt64.toNat_ofNat', Nat.mod_eq_of_lt hset, hsum]

/-! ## Chunks in hand -/

/-- The places up to the setting of the bit. -/
def WorkerPc.unmarked : WorkerPc → Bool
  | .header => true
  | .payload _ => true
  | .verify => true
  | .write _ => true
  | .mark => true
  | _ => false

/-- The chunk a worker has taken up and not yet marked: the id of its file, and its index. -/
def Worker.inHand (w : Worker) : Option (UInt64 × Nat) :=
  if w.pc.unmarked then w.current.map fun c => (c.fileId, c.chunkIndex) else none

/-- The bytes a worker has marked and not yet counted. -/
def Worker.uncounted (w : Worker) : Nat :=
  match w.pc, w.current with
  | .count _, some c => c.expectedLen
  | _, _ => 0

/-- A step of a worker by what it does to the chunk in hand and to the counter. -/
inductive Worker.Tallies (env : Env) (w w' : Worker) : Effect → Prop
  | keeps {e : Effect} (hset : ∀ id i, e ≠ .setBit id i) (hcount : ∀ n, e ≠ .count n)
      (hhand : w'.inHand = none ∨ w'.inHand = w.inHand) (hun : w.uncounted = 0)
      (hun' : w'.uncounted = 0) : Tallies env w w' e
  | takes {c : Current} (hcur : w.current = none) (hcur' : w'.current = some c)
      (hhand : w'.inHand = some (c.fileId, c.chunkIndex)) (hun : w.uncounted = 0)
      (hun' : w'.uncounted = 0) : Tallies env w w' .quiet
  | marks {c : Current} {st : FileState} {b : ChunkBitmap} (hcur : w.current = some c)
      (hhand : w.inHand = some (c.fileId, c.chunkIndex))
      (hst : env.files.lookup c.fileId = some st) (hset : st.bitmap.set c.chunkIndex = .ok b)
      (hhand' : w'.inHand = none) (hun : w.uncounted = 0) (hun' : w'.uncounted = c.expectedLen) :
      Tallies env w w' (.setBit c.fileId c.chunkIndex)
  | counts {c : Current} (hcur : w.current = some c) (hhand' : w'.inHand = none)
      (hun : w.uncounted = c.expectedLen) (hun' : w'.uncounted = 0) :
      Tallies env w w' (.count (UInt64.ofNat c.expectedLen))

theorem Worker.uncounted_of_pc {w : Worker} (h : ∀ b, w.pc ≠ .count b) : w.uncounted = 0 := by
  unfold uncounted
  split
  · next b c hpc hcur => exact absurd hpc (h b)
  · rfl

/-- Counting does not fail. -/
theorem Worker.step_count {p : Params} {env : Env} {w w' : Worker} {io : IoAct} {e : Effect}
    {complete : Bool} (hpc : w.pc = .count complete) (h : w.step p env io = some (w', e)) :
    ∃ c done, w.current = some c ∧ w' = { w with pc := .report complete done } ∧
      e = .count (UInt64.ofNat c.expectedLen) := by
  simp only [Worker.step, hpc] at h
  split at h
  · cases h
  · next c hcur =>
      split at h
      · cases h
      · cases io with
        | next =>
            cases h
            exact ⟨c, _, hcur, rfl, rfl⟩
        | write n => cases h
        | fail => cases h

/-- **Every worker step is one of the four.** -/
theorem Worker.step_tallies {p : Params} {env : Env} {w w' : Worker} {io : IoAct} {e : Effect}
    (h : w.step p env io = some (w', e)) : w.Tallies env w' e := by
  by_cases hcount : ∃ complete, w.pc = .count complete
  · obtain ⟨complete, hpc⟩ := hcount
    obtain ⟨c, done, hcur, rfl, rfl⟩ := Worker.step_count hpc h
    exact .counts hcur rfl (by simp [uncounted, hpc, hcur]) rfl
  · have hun : w.uncounted = 0 := Worker.uncounted_of_pc fun b hb => hcount ⟨b, hb⟩
    -- a step from one unmarked place to another, on the same chunk
    have hstill : ∀ {w' : Worker}, w'.current = w.current → w'.pc.unmarked = true →
        w.pc.unmarked = true → w'.inHand = w.inHand := by
      intro w' hcur hpc' hpc
      rw [inHand, inHand, if_pos hpc, if_pos hpc', hcur]
    cases Worker.step_moves h with
    | skips hpc hlen hdec htype =>
        exact .keeps nofun nofun (Or.inr rfl) hun (by simp [uncounted, hpc])
    | @opens hd c buf hpc hlen hdec htype hacc =>
        obtain ⟨s, hs, ⟨hcur, -⟩ | ⟨hcur, -, -⟩, -⟩ := acceptFrame_ok hacc
        · exact .keeps nofun nofun (Or.inr (hstill hcur.symm rfl (by rw [hpc]; rfl))) hun rfl
        · exact .takes hcur rfl rfl hun rfl
    | buffers hpc hcur hn =>
        refine .keeps nofun nofun (Or.inr (hstill rfl ?_ (by rw [hpc]; rfl))) hun
          (Worker.uncounted_of_pc fun b => ?_)
        · simp only
          split <;> rfl
        · simp only
          split <;> nofun
    | verifies hpc hcur hs hdigest =>
        exact .keeps nofun nofun (Or.inr (hstill rfl rfl (by rw [hpc]; rfl))) hun rfl
    | writes hpc hcur hs hn hfits =>
        exact .keeps nofun nofun (Or.inr (hstill rfl rfl (by rw [hpc]; rfl))) hun rfl
    | written hpc => exact .keeps nofun nofun (Or.inr (hstill rfl rfl (by rw [hpc]; rfl))) hun rfl
    | @marks c st b hpc hcur hs hset =>
        exact .marks hcur (by simp [inHand, hpc, hcur, WorkerPc.unmarked]) hs hset rfl hun
          (by simp [uncounted, hcur])
    | counts hpc hcur => exact absurd ⟨_, hpc⟩ hcount
    | @reports complete done hpc =>
        refine .keeps nofun nofun (Or.inl ?_) hun (Worker.uncounted_of_pc fun b => ?_)
        · cases complete <;> rfl
        · simp only
          split <;> nofun
    | checkpoints hpc hcur hs hmove =>
        exact .keeps (fun id i => hmove.not_setBit id i) (fun n => by cases hmove <;> nofun)
          (Or.inl rfl) hun rfl
    | checkpointed hpc hcur hs hmove =>
        exact .keeps (fun id i => hmove.not_setBit id i) (fun n => by cases hmove <;> nofun)
          (Or.inl rfl) hun rfl
    | _ => exact .keeps nofun nofun (Or.inl rfl) hun rfl

/-- A step of a session, by what it does to the chunks in hand and to the counter. -/
inductive Session.Tallies (s s' : Session) (e : Effect) : Prop
  | worker {i : Nat} {w w' : Worker} (hw : s.workers[i]? = some w) (htallies : w.Tallies s.env w' e)
      (heq : s' = { s with env := s.env.apply e, workers := s.workers.set i w' })
  | elsewhere (hset : ∀ id i, e ≠ .setBit id i) (hcount : ∀ n, e ≠ .count n)
      (henv : s'.env = s.env.apply e)
      (hhand : ∀ (j : Nat) v, s'.workers[j]? = some v → v.inHand = none ∨
        ∃ v0, s.workers[j]? = some v0 ∧ v0.inHand = v.inHand)
      (hsum : (s'.workers.map Worker.uncounted).sum = (s.workers.map Worker.uncounted).sum)

theorem MainMove.not_count {p : Params} {env : Env} {pc pc' : MainPc} {e : Effect}
    (h : MainMove p env pc pc' e) (n : UInt64) : e ≠ .count n := by
  cases h with
  | saving error todo hs hmove => cases hmove <;> nofun
  | saved error todo hs hmove => cases hmove <;> nofun
  | shelving hs hmove => cases hmove <;> nofun
  | shelved hs hmove => cases hmove <;> nofun
  | aborts hs he => rcases he with rfl | rfl <;> nofun
  | drops todo hs he => rcases he with rfl | rfl <;> nofun
  | dropsTmp todo hs he => rcases he with rfl | rfl <;> nofun
  | _ => nofun

/-- A worker on whose stream something arrives has in hand what it had. -/
theorem Session.Tallies.arrives {s : Session} {i : Nat} {w w' : Worker}
    (hw : s.workers[i]? = some w) (hpc : w'.pc = w.pc) (hcur : w'.current = w.current) :
    s.Tallies { s with workers := s.workers.set i w' } .quiet := by
  refine .elsewhere (by simp) (by simp) rfl (fun j v hj => Or.inr ?_) ?_
  · rcases of_getElem?_set hj with ⟨rfl, rfl⟩ | ⟨-, hj⟩
    · exact ⟨w, hw, by rw [Worker.inHand, Worker.inHand, hpc, hcur]⟩
    · exact ⟨v, hj, rfl⟩
  · have hsum := List.sum_map_set hw w' Worker.uncounted
    have hsame : w'.uncounted = w.uncounted := by
      rw [Worker.uncounted, Worker.uncounted, hpc, hcur]
    simp only
    omega

/-- A step that leaves the workers alone. -/
theorem Session.Tallies.others {s : Session} {main : MainPc} {e : Effect}
    (hset : ∀ id i, e ≠ .setBit id i) (hcount : ∀ n, e ≠ .count n) :
    s.Tallies { s with env := s.env.apply e, main := main } e :=
  .elsewhere hset hcount rfl (fun _ v hv => Or.inr ⟨v, hv, rfl⟩) rfl

/-- **Every session step is a worker's, or leaves the chunks in hand and the counter alone.** -/
theorem Session.stepEffect_tallies {p : Params} {s s' : Session} {a : SessionAct} {e : Effect}
    (h : s.stepEffect p a = some (s', e)) : s.Tallies s' e := by
  cases Session.stepEffect_cases h with
  | deliver hw hopen => exact .arrives hw rfl rfl
  | close hw hopen => exact .arrives hw rfl rfl
  | worker hw hstep => exact .worker hw (Worker.step_tallies hstep) rfl
  | accept hmain =>
      refine .elsewhere (by simp) (by simp) rfl (fun j v hj => ?_)
        (by simp [Worker.fresh, Worker.uncounted])
      rw [List.getElem?_append] at hj
      split at hj
      · exact Or.inr ⟨v, hj, rfl⟩
      · obtain rfl := List.mem_singleton.1 (List.mem_of_getElem? hj)
        exact Or.inl rfl
  | refuse hmain => exact .others (e := .quiet) (by simp) (by simp)
  | join hmain hended horder hnext => exact .others (e := .quiet) (by simp) (by simp)
  | main hstep =>
      have hmove := mainStep_moves hstep
      exact .others (fun id i => hmove.not_setBit id i) (fun n => hmove.not_count n)

/-! ## Each missing chunk once -/

/-- The peer delivers each missing chunk once: a chunk that a worker takes up has its bit clear, and
    no worker has it in hand. -/
def Session.Once (p : Params) (s : Session) (a : SessionAct) : Prop :=
  ∀ s', s.step p a = some s' → ∀ (i : Nat) w w' c, s.workers[i]? = some w →
    s'.workers[i]? = some w' → w.current = none → w'.current = some c →
      (∀ st, s.env.files.lookup c.fileId = some st → st.bitmap.has c.chunkIndex = false) ∧
      ∀ v ∈ s.workers, v.inHand ≠ some (c.fileId, c.chunkIndex)

/-- A chunk in hand is missing, and one worker has it. -/
structure Session.Hands (s : Session) : Prop where
  missing : ∀ (i : Nat) w id j st, s.workers[i]? = some w → w.inHand = some (id, j) →
    s.env.files.lookup id = some st → st.bitmap.has j = false
  sole : ∀ (i j : Nat) w v x, s.workers[i]? = some w → s.workers[j]? = some v →
    w.inHand = some x → v.inHand = some x → i = j

/-- No chunk is taken up, and no bit of a chunk in hand is set. -/
theorem Session.Hands.keep {s s' : Session} (h : s.Hands)
    (hworkers : ∀ (j : Nat) v x, s'.workers[j]? = some v → v.inHand = some x →
      ∃ v0, s.workers[j]? = some v0 ∧ v0.inHand = some x)
    (hbits : ∀ (i : Nat) w id j st', s'.workers[i]? = some w → w.inHand = some (id, j) →
      s'.env.files.lookup id = some st' →
      ∃ st, s.env.files.lookup id = some st ∧ st'.bitmap.has j = st.bitmap.has j) : s'.Hands := by
  refine ⟨fun i w id j st' hw hx hst' => ?_, fun i j w v x hw hv hx hx' => ?_⟩
  · obtain ⟨w0, hw0, hx0⟩ := hworkers i w _ hw hx
    obtain ⟨st, hst, heq⟩ := hbits i w id j st' hw hx hst'
    rw [heq]
    exact h.missing i w0 id j st hw0 hx0 hst
  · obtain ⟨w0, hw0, hx0⟩ := hworkers i w x hw hx
    obtain ⟨v0, hv0, hx1⟩ := hworkers j v x hv hx'
    exact h.sole i j w0 v0 x hw0 hv0 hx0 hx1

/-- **What a step keeps of the chunks in hand**, when each missing chunk comes once. -/
theorem Session.Hands.step {p : Params} {s s' : Session} {a : SessionAct} {e : Effect}
    (h : s.Hands) (hwf : ∀ id st, s.env.files.lookup id = some st → st.bitmap.Wf)
    (hone : s.Once p a) (hstep : s.step p a = some s') (htallies : s.Tallies s' e) : s'.Hands := by
  -- a step that sets no bit leaves the bitmaps alone
  have hsame : (∀ id i, e ≠ .setBit id i) → ∀ id j st', (s.env.apply e).files.lookup id = some st' →
      ∃ st, s.env.files.lookup id = some st ∧ st'.bitmap.has j = st.bitmap.has j := by
    intro hset id j st' hst'
    obtain ⟨st, hst, rfl, -⟩ := Env.lookup_apply hst'
    exact ⟨st, hst, by rw [Effect.bitmap_onFile_of_ne id st (hset id)]⟩
  cases htallies with
  | elsewhere hset hcount henv hhand hsum =>
      refine h.keep (fun j v x hj hx => ?_) fun i w id j st' _ _ hst' => ?_
      · rcases hhand j v hj with hnone | ⟨v0, hv0, heq⟩
        · rw [hnone] at hx
          cases hx
        · exact ⟨v0, hv0, heq.trans hx⟩
      · rw [henv] at hst'
        exact hsame hset id j st' hst'
  | @worker i w w' hw htallies heq =>
      subst heq
      cases htallies with
      | keeps hset hcount hhand hun hun' =>
          refine h.keep (fun j v x hj hx => ?_) fun i v id j st' _ _ hst' => hsame hset id j st' hst'
          rcases of_getElem?_set hj with ⟨rfl, rfl⟩ | ⟨-, hj⟩
          · rcases hhand with hnone | hhand
            · rw [hnone] at hx
              cases hx
            · exact ⟨w, hw, hhand.symm.trans hx⟩
          · exact ⟨v, hj, hx⟩
      | counts hcur hhand' hun hun' =>
          refine h.keep (fun j v x hj hx => ?_)
              fun i v id j st' _ _ hst' => hsame (by simp) id j st' hst'
          rcases of_getElem?_set hj with ⟨rfl, rfl⟩ | ⟨-, hj⟩
          · rw [hhand'] at hx
            cases hx
          · exact ⟨v, hj, hx⟩
      | @marks c st b hcur hhand hst hset hhand' hun hun' =>
          refine h.keep (fun j v x hj hx => ?_) fun k v id j st' hv hx hst' => ?_
          · rcases of_getElem?_set hj with ⟨rfl, rfl⟩ | ⟨-, hj⟩
            · rw [hhand'] at hx
              cases hx
            · exact ⟨v, hj, hx⟩
          · -- the bit that is set is of the chunk that leaves the hand
            obtain ⟨st0, hst0, rfl, -⟩ := Env.lookup_apply hst'
            refine ⟨st0, hst0, ?_⟩
            rcases of_getElem?_set hv with ⟨-, rfl⟩ | ⟨hik, hv⟩
            · rw [hhand'] at hx
              cases hx
            · simp only [Effect.onFile]
              split
              · next hid =>
                  subst hid
                  obtain rfl := Option.some.inj (hst.symm.trans hst0)
                  have hne : j ≠ c.chunkIndex := by
                    rintro rfl
                    exact hik (h.sole i k w v _ hw hv hhand hx)
                  rw [hset]
                  simp only
                  rw [ChunkBitmap.has_of_set (hwf _ _ hst) hset, decide_eq_false hne, Bool.or_false]
              · rfl
      | @takes c hcur hcur' hhand' hun hun' =>
          have hget : (s.workers.set i w')[i]? = some w' := by
            rw [List.getElem?_set_self (List.getElem?_eq_some_iff.1 hw).1]
          obtain ⟨hclear, hfree⟩ := hone _ hstep i w w' c hw hget hcur hcur'
          refine ⟨fun k v id j st' hv hx hst' => ?_, fun k l u v x hu hv hx hx' => ?_⟩
          · obtain ⟨st0, hst0, heq⟩ := hsame (by simp) id j st' hst'
            rw [heq]
            rcases of_getElem?_set hv with ⟨-, rfl⟩ | ⟨-, hv⟩
            · rw [hhand'] at hx
              cases hx
              exact hclear st0 hst0
            · exact h.missing k v id j st0 hv hx hst0
          · rcases of_getElem?_set hu with ⟨hk, rfl⟩ | ⟨-, hu0⟩ <;>
              rcases of_getElem?_set hv with ⟨hl, rfl⟩ | ⟨-, hv0⟩
            · rw [← hk, ← hl]
            · rw [hhand'] at hx
              exact absurd (hx'.trans hx.symm) (hfree v (List.mem_of_getElem? hv0))
            · rw [hhand'] at hx'
              exact absurd (hx.trans hx'.symm) (hfree u (List.mem_of_getElem? hu0))
            · exact h.sole k l u v x hu0 hv0 hx hx'

/-! ## What an effect does to the sums -/

/-- A measure that the effect does not change in any file. -/
theorem Effect.tally_onFiles {e : Effect} {files : Files} {f : FileState → Nat}
    (h : ∀ id s, files.lookup id = some s → f (e.onFile id s) = f s) :
    (e.onFiles files).tally f = files.tally f := by
  unfold onFiles
  split
  · rfl
  · next id _ =>
      split
      · rfl
      · next s hs =>
          have hinsert := AList.tally_insert (f := f) hs (e.onFile id s)
          rw [h id s hs] at hinsert
          omega

theorem Effect.sizeBytes_onFiles (e : Effect) (files : Files) :
    Files.sizeBytes (e.onFiles files) = files.sizeBytes :=
  Effect.tally_onFiles fun id s _ => by rw [(e.sameFile_onFile id s).layout]

theorem Effect.heldBytes_onFiles {e : Effect} (h : ∀ id i, e ≠ .setBit id i) (files : Files) :
    Files.heldBytes (e.onFiles files) = files.heldBytes :=
  Effect.tally_onFiles fun id s _ => by
    rw [(e.sameFile_onFile id s).layout, Effect.bitmap_onFile_of_ne id s (h id)]

/-- **A bit that is set adds its chunk to what is held.** -/
theorem Effect.heldBytes_setBit {files : Files} {id : UInt64} {s : FileState} {i : Nat}
    {b : ChunkBitmap} (hs : files.lookup id = some s) (hwf : s.bitmap.Wf)
    (hclear : s.bitmap.has i = false) (hset : s.bitmap.set i = .ok b) :
    Files.heldBytes ((Effect.setBit id i).onFiles files) = files.heldBytes + s.layout.len i := by
  have hinsert := AList.tally_insert (f := fun s : FileState => s.bitmap.heldBytes s.layout) hs
    ((Effect.setBit id i).onFile id s)
  have hheld := ChunkBitmap.heldBytes_set (l := s.layout) hwf hclear hset
  simp only [Effect.onFile, if_true, hset] at hinsert
  simp only [Files.heldBytes, Effect.onFiles, Effect.target, hs, Effect.onFile, if_true, hset]
  omega

theorem Env.counter_apply {env : Env} {e : Effect} (h : ∀ n, e ≠ .count n) :
    (env.apply e).counter = env.counter := by
  cases e with
  | count n => exact absurd rfl (h n)
  | _ => rfl

/-! ## The counter along a run -/

/-- The counter is what the bitmaps say, less what is marked and not yet counted; whoever is told a
    number of bytes is told the size of the offer. -/
structure Session.Counting (blake3 : Blake3) (total : UInt64) (s : Session) : Prop where
  fits : s.Fits blake3
  swept : s.Swept
  hands : s.Hands
  sized : s.env.files.Sized
  size_eq : s.env.files.sizeBytes = total.toNat
  counted : s.env.counter.toNat + (s.workers.map Worker.uncounted).sum = s.env.files.heldBytes
  returned : ∀ n, s.main = .returned (.ok n) → n = total
  sent : ∀ n, .complete n ∈ s.env.sent → n = total

namespace Session.Counting

variable {blake3 : Blake3} {total : UInt64} {s s' : Session}

theorem heldBytes_le (h : s.Counting blake3 total) : s.env.files.heldBytes ≤ total.toNat := by
  have := h.sized.missingBytes_add_heldBytes
  have := h.size_eq
  omega

/-- The counter never exceeds the size of the offer. -/
theorem counter_le (h : s.Counting blake3 total) : s.env.counter ≤ total := by
  have := h.heldBytes_le
  have := h.counted
  exact UInt64.le_iff_toNat_le.2 (by omega)

/-- Past the completeness loop the counter is the size of the offer. -/
theorem counter_eq (h : s.Counting blake3 total) (hmain : s.main.unswept = some []) :
    s.env.counter = total := by
  have hcomplete : s.env.files.missingBytes = 0 :=
    h.sized.complete_iff.2 fun id st hst => (h.swept.landed [] id st hmain hst (by simp)).1
  have hnone : (s.workers.map Worker.uncounted).sum = 0 := by
    rw [List.sum_eq_zero_iff_forall_eq_nat]
    intro n hn
    obtain ⟨w, hw, rfl⟩ := List.mem_map.1 hn
    exact Worker.uncounted_of_pc fun b => by rw [h.swept.ended [] hmain w hw]; nofun
  have := h.sized.missingBytes_add_heldBytes
  have := h.size_eq
  have := h.counted
  exact UInt64.toNat_inj.1 (by omega)

/-- What a step makes of the count. -/
theorem counted_step (h : s.Counting blake3 total) {e : Effect} (htallies : s.Tallies s' e) :
    s'.env.counter.toNat + (s'.workers.map Worker.uncounted).sum = s'.env.files.heldBytes := by
  have hcounted := h.counted
  have hle := h.heldBytes_le
  cases htallies with
  | elsewhere hset hcount henv hhand hsum =>
      rw [henv, hsum, Env.apply_files, Effect.heldBytes_onFiles hset, Env.counter_apply hcount,
          hcounted]
  | @worker i w w' hw htallies heq =>
      subst heq
      have hexchange := List.sum_map_set hw w' Worker.uncounted
      cases htallies with
      | keeps hset hcount hhand hun hun' =>
          simp only [Env.apply_files]
          rw [Effect.heldBytes_onFiles hset, Env.counter_apply hcount]
          omega
      | takes hcur hcur' hhand hun hun' =>
          simp only [Env.apply_files]
          rw [Effect.heldBytes_onFiles (e := .quiet) nofun, Env.counter_apply (e := .quiet) nofun]
          omega
      | @marks c st b hcur hhand hst hset hhand' hun hun' =>
          have hclear := h.hands.missing i w _ _ st hw hhand hst
          obtain ⟨st', hst', hof⟩ := (h.fits w (List.mem_of_getElem? hw)).current c hcur
          obtain rfl := Option.some.inj (hst.symm.trans hst')
          have hlen := hof.len_eq
          simp only [Env.apply_files]
          rw [Effect.heldBytes_setBit hst (h.sized _ _ hst).1 hclear hset,
            Env.counter_apply (e := .setBit c.fileId c.chunkIndex) nofun]
          omega
      | @counts c hcur hhand' hun hun' =>
          have htotal := total.toNat_lt
          have hadd : (s.env.apply (.count (UInt64.ofNat c.expectedLen))).counter.toNat
              = s.env.counter.toNat + c.expectedLen := by
            have hsum : (s.env.apply (.count (UInt64.ofNat c.expectedLen))).counter
              = s.env.counter + UInt64.ofNat c.expectedLen := rfl
            rw [hsum, UInt64.toNat_add, UInt64.toNat_ofNat', Nat.add_mod_mod, Nat.mod_eq_of_lt]
            omega
          simp only [Env.apply_files]
          rw [Effect.heldBytes_onFiles (e := .count _) nofun, hadd]
          omega

end Session.Counting

/-- `run` returns the counter, and says the same in `Complete`. -/
theorem MainMove.returns_counter {p : Params} {env : Env} {pc pc' : MainPc} {e : Effect}
    (h : MainMove p env pc pc' e) {n : UInt64}
    (hn : pc' = .returned (.ok n) ∨ e = .send (.complete n)) :
    pc.unswept = some [] ∧ n = env.counter := by
  have hno : ∀ {next : CheckpointNext} {st : FileState} {cp : CheckpointPc} {e : Effect},
      CheckpointMove p.blake3 env.disk st cp next e → e ≠ .send (.complete n) :=
    fun hmove => hmove.not_send _
  cases h with
  | completes =>
      rcases hn with hn | hn <;> cases hn <;> exact ⟨rfl, rfl⟩
  | saving error todo hs hmove =>
      rcases hn with hn | hn
      · cases hn
      · exact absurd hn (hno hmove)
  | saved error todo hs hmove =>
      rcases hn with hn | hn
      · cases hn
      · exact absurd hn (hno hmove)
  | shelving hs hmove =>
      rcases hn with hn | hn
      · cases hn
      · exact absurd hn (hno hmove)
  | shelved hs hmove =>
      rcases hn with hn | hn
      · cases hn
      · exact absurd hn (hno hmove)
  | aborts hs he => rcases hn with hn | rfl <;> rcases he with he | he <;> cases he <;> cases hn
  | drops todo hs he => rcases hn with hn | rfl <;> rcases he with he | he <;> cases he <;> cases hn
  | dropsTmp todo hs he => rcases hn with hn | rfl <;> rcases he with he | he <;> cases he <;> cases hn
  | _ => rcases hn with hn | hn <;> cases hn

/-- **What a step keeps of the count**, when each missing chunk comes once. -/
theorem Session.Counting.step {p : Params} {total : UInt64} {s s' : Session} {a : SessionAct}
    (h : s.Counting p.blake3 total) (hone : s.Once p a) (hstep : s.step p a = some s') :
    s'.Counting p.blake3 total := by
  obtain ⟨e, heff, hmove⟩ := Session.step_moves hstep
  have htallies := Session.stepEffect_tallies heff
  have hwf : ∀ id st, s.env.files.lookup id = some st → st.bitmap.Wf :=
    fun id st hst => (h.sized id st hst).1
  refine ⟨hmove.fits h.fits, h.swept.step hmove, h.hands.step hwf hone hstep htallies, ?_, ?_,
    h.counted_step htallies, fun n hn => ?_, fun n hn => ?_⟩
  · rw [hmove.env_eq]
    exact h.sized.onFiles e
  · rw [hmove.env_eq, Env.apply_files, Effect.sizeBytes_onFiles, h.size_eq]
  · cases hmove with
    | main hmain =>
        obtain ⟨hswept, rfl⟩ := hmain.returns_counter (Or.inl hn)
        exact h.counter_eq hswept
    | accepts => cases hn
    | refuses => cases hn
    | joins hmain hended horder hnext =>
        rcases hnext with ⟨error, -, rfl⟩ | ⟨-, rfl⟩ <;> cases hn
    | _ => exact h.returned n hn
  · by_cases he : e = .send (.complete n)
    · cases hmove with
      | main hmain =>
          obtain ⟨hswept, rfl⟩ := hmain.returns_counter (Or.inr he)
          exact h.counter_eq hswept
      | worker hw hwork => exact absurd he (hwork.not_send _)
      | _ => cases he
    · refine h.sent n ?_
      rw [hmove.env_eq] at hn
      cases e with
      | send b =>
          rcases List.mem_append.1 hn with hold | hnew
          · exact hold
          · exact absurd (congrArg Effect.send (List.mem_singleton.1 hnew).symm) he
      | _ => exact hn

/-! ## Exact accounting -/

/-- **Byte accounting** of a session over `total` bytes, as `run` intends it: the counter starts at
    what is held; and as long as each missing chunk comes once, it never exceeds the size of the
    offer, which is what `run` reports and returns in the end. -/
structure Session.Accounts (p : Params) (total : UInt64) (s₀ : Session) : Prop where
  seed : s₀.env.counter.toNat = s₀.env.files.heldBytes
  bounded : ∀ as s, Run.Meets (Session.step p) (Session.Once p) s₀ as → s₀.runs p as = some s →
    s.env.counter ≤ total
  exact : ∀ as s n, Run.Meets (Session.step p) (Session.Once p) s₀ as → s₀.runs p as = some s →
    s.main = .returned (.ok n) ∨ .complete n ∈ s.env.sent → n = total

/-- **When the accounting is exact.** For an offer that fits a control frame, exactly if no held
    chunk is shorter than the chunk size or nothing is missing. -/
theorem byte_accounting_iff {p : Params} {config : Config} {outputDir : FilePath}
    {chunkSize : UInt32} {disk : FileSystem} {entries : List (FileEntry × EntryIo)} {st : OfferState}
    (hoffer : offerLoop p.blake3 config outputDir chunkSize (.init disk) entries = .ok st)
    (hframe : (entries.map fun x => x.1.chunkHashes.length).sum ≤ MAX_FRAME_PAYLOAD)
    (hids : (entries.map fun x => x.1.fileId).Nodup)
    (hcount : ∀ id fs, st.files.lookup id = some fs → fs.bitmap.count = fs.layout.count)
    (streamCount : UInt32) :
    (Session.start st streamCount).Accounts p st.totalBytes ↔
      (∀ id fs, st.files.lookup id = some fs → ∀ i, fs.bitmap.has i = true →
        fs.layout.len i = fs.layout.chunkSize) ∨
      ∀ id fs, st.files.lookup id = some fs → fs.bitmap.isComplete = true := by
  have hsized : st.files.Sized :=
    fun id fs hfs => ⟨(accepted_offerLoop hoffer).wf hfs, hcount id fs hfs⟩
  obtain ⟨hseed, htotal⟩ := (totalled_offerLoop hoffer hids).seed hframe hsized streamCount
  have hsum := hsized.missingBytes_add_heldBytes
  -- the counter starts right exactly if there is no excess or nothing missing to cut it at
  have hiff : (Session.start st streamCount).env.counter.toNat
      = (Session.start st streamCount).env.files.heldBytes ↔
        st.files.excessBytes = 0 ∨ st.files.missingBytes = 0 := by
    have hfiles : (Session.start st streamCount).env.files = st.files := rfl
    rw [hseed, hfiles]
    omega
  rw [← hsized.excessBytes_eq_zero_iff, ← hsized.complete_iff, ← hiff]
  constructor
  · exact fun h => h.seed
  · intro hstart
    have hinit : (Session.start st streamCount).Counting p.blake3 st.totalBytes := {
      fits := fun w hw => nomatch hw
      swept := Session.swept_start st streamCount
      hands := ⟨fun i w id j fs hw => by simp [Session.start] at hw,
        fun i j w v x hw => by simp [Session.start] at hw⟩
      sized := hsized
      size_eq := htotal.symm
      counted := hstart
      returned := fun n hn => by simp [Session.start] at hn
      sent := fun n hn => nomatch hn }
    have hrun : ∀ as s,
        Run.Meets (Session.step p) (Session.Once p) (Session.start st streamCount) as →
        (Session.start st streamCount).runs p as = some s → s.Counting p.blake3 st.totalBytes :=
      fun as s hone hrun => Run.invariant_of (I := Session.Counting p.blake3 st.totalBytes)
        (fun _ _ _ hI hC hstep => hI.step hC hstep) hinit hone hrun
    refine ⟨hstart, fun as s hone has => (hrun as s hone has).counter_le,
        fun as s n hone has hn => ?_⟩
    rcases hn with hret | hsent
    · exact (hrun as s hone has).returned n hret
    · exact (hrun as s hone has).sent n hsent

/-! ### A held short chunk beside a missing one -/

/-- Every bitmap has a bit per chunk. -/
def countsRight (st : OfferState) : Bool :=
  st.files.entries.all fun e => decide (e.2.bitmap.count = e.2.layout.count)

/-- The two files offered over the disk, found by evaluation. -/
theorem offerLoop_twoFileOffer (disk : FileSystem) (check : OfferState → Bool)
    (h : ((offerLoop shortFileHash plainConfig ["out"] 65536 (.init disk)
      twoFileOffer).toOption.any fun st => countsRight st && check st) = true) :
    ∃ st, offerLoop shortFileHash plainConfig ["out"] 65536 (.init disk) twoFileOffer = .ok st ∧
      (∀ id fs, st.files.lookup id = some fs → fs.bitmap.count = fs.layout.count) ∧
      check st = true := by
  obtain ⟨st, hst, hcheck⟩ := exists_ok_of_any h
  rw [Bool.and_eq_true] at hcheck
  exact ⟨st, hst, fun id fs hfs => of_decide_eq_true (check_of_lookup hcheck.1 hfs), hcheck.2⟩

/-- Some held chunk is short, and some file is not complete. -/
def holdsShort (st : OfferState) : Bool :=
  (st.files.lookup 0).any (fun fs => fs.bitmap.has 0 && fs.layout.len 0 != fs.layout.chunkSize) &&
    (st.files.lookup 1).any fun fs => !fs.bitmap.isComplete

/-- The accounting is exact over an empty directory, and not with `a` there and `b` missing. -/
theorem byte_accounting_iff_twoFile :
    (∃ st, offerLoop shortFileHash plainConfig ["out"] 65536 (.init .empty) twoFileOffer = .ok st ∧
      (Session.start st 1).Accounts uncheckpointed st.totalBytes) ∧
    ∃ st, offerLoop shortFileHash plainConfig ["out"] 65536 (.init stagedA) twoFileOffer = .ok st ∧
      ¬ (Session.start st 1).Accounts uncheckpointed st.totalBytes := by
  constructor
  · obtain ⟨st, hst, hcount, hnew⟩ := offerLoop_twoFileOffer .empty
      (fun st => st.files.entries.all fun e => decide (e.2.bitmap = .new e.2.layout.count))
      (by decide +kernel)
    have hiff := byte_accounting_iff (p := uncheckpointed) hst (by decide) (by decide) hcount 1
    refine ⟨st, hst, hiff.2 (Or.inl fun id fs hfs i hi => ?_)⟩
    rw [of_decide_eq_true (check_of_lookup hnew hfs),
      ChunkBitmap.has_new] at hi
    cases hi
  · obtain ⟨st, hst, hcount, hshort⟩ := offerLoop_twoFileOffer stagedA holdsShort (by decide +kernel)
    rw [holdsShort, Bool.and_eq_true] at hshort
    obtain ⟨a, ha, hheld⟩ := (Option.any_eq_true _ _).1 hshort.1
    obtain ⟨b, hb, hmissing⟩ := (Option.any_eq_true _ _).1 hshort.2
    rw [Bool.and_eq_true, bne_iff_ne] at hheld
    rw [Bool.not_eq_true'] at hmissing
    have hiff := byte_accounting_iff (p := uncheckpointed) hst (by decide) (by decide) hcount 1
    refine ⟨st, hst, fun haccounts => ?_⟩
    rcases hiff.1 haccounts with hwhole | hcomplete
    · exact hheld.2 (hwhole 0 a ha 0 hheld.1)
    · exact absurd (hcomplete 1 b hb) (by rw [hmissing]; simp)

/-- One byte of two is held, and the counter starts at two. -/
theorem short_chunk_counted_whole :
    ¬ ∀ (p : Params) (config : Config) (outputDir : FilePath) (chunkSize : UInt32)
      (disk : FileSystem) (entries : List (FileEntry × EntryIo)) (st : OfferState)
      (streamCount : UInt32),
      offerLoop p.blake3 config outputDir chunkSize (.init disk) entries = .ok st →
      (entries.map fun x => x.1.chunkHashes.length).sum ≤ MAX_FRAME_PAYLOAD →
      (entries.map fun x => x.1.fileId).Nodup →
      (∀ id fs, st.files.lookup id = some fs → fs.bitmap.count = fs.layout.count) →
      (Session.start st streamCount).Accounts p st.totalBytes := by
  intro hclaim
  obtain ⟨st, hst, hcount, hcheck⟩ := offerLoop_twoFileOffer stagedA
    (fun st => decide ((Session.start st 1).env.counter.toNat = 2 ∧ st.files.heldBytes = 1))
    (by decide +kernel)
  obtain ⟨hcounter, hheld⟩ := of_decide_eq_true hcheck
  have hseed : (Session.start st 1).env.counter.toNat = st.files.heldBytes :=
    (hclaim uncheckpointed _ _ _ _ _ st 1 hst (by decide) (by decide) hcount).seed
  rw [hcounter, hheld] at hseed
  cases hseed

end AetherLink
