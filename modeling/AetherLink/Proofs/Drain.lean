import AetherLink.Proofs.Grammar

set_option autoImplicit false

/-! # The language of `drain_stream`

A worker whose stream has ended comes to an end: every step leaves less to do (`WorkerMove.less`),
and there is a next step unless the disk refuses a call (`Worker.goes_on`). What it returns is then
decided by the bytes alone: `Ok` for frames the grammar allows, followed by less than a header.

That is not the grammar. A stream that stops inside a header between two chunks is taken for one
that was closed, because `read_exact` reports the same `UnexpectedEof` for both. A run is over with
the last byte of its chunk, so an empty frame after it is taken for the start of the next; and a
chunk past the end of a bitmap that was loaded too short cannot be marked. -/

namespace AetherLink

/-! ## A worker comes to an end -/

/-- Where a worker is on its way through a chunk, from the end. -/
def WorkerPc.ahead : WorkerPc → Nat
  | .ended _ => 0
  | .header => 1
  | .release _ => 2
  | .checkpoint (.renameTmp _ _) => 3
  | .checkpoint (.syncTmp _ _) => 4
  | .checkpoint (.writeTmp _ _ _) => 5
  | .checkpoint (.createTmp _) => 6
  | .checkpoint (.syncData _) => 7
  | .checkpoint .snapshot => 8
  | .reset => 9
  | .tryLock => 10
  | .due => 11
  | .announce => 12
  | .report _ _ => 13
  | .count _ => 14
  | .mark => 15
  | .write _ => 16
  | .verify => 17
  | .payload _ => 18

/-- The length of a record. -/
def recordLength (snapshot : ChunkBitmap) : Nat :=
  Resume.HEADER_LEN + snapshot.bits.length + 32

/-- What is left to write. -/
def Worker.left (w : Worker) : Nat :=
  match w.pc with
  | .write done => w.buf.length - done
  | .checkpoint (.writeTmp snapshot _ done) => recordLength snapshot - done
  | _ => 0

/-- What is left to read; nothing once the worker has ended. -/
def Worker.unread (w : Worker) : Nat :=
  match w.pc with
  | .ended _ => 0
  | _ => w.inbox.length + 1

/-- What a step makes smaller. -/
def Worker.toDo (w : Worker) : Nat × Nat × Nat :=
  (w.unread, w.pc.ahead, w.left)

/-- The order of these, first by what is left to read. -/
def Less : Nat × Nat × Nat → Nat × Nat × Nat → Prop :=
  Prod.Lex (· < ·) (Prod.Lex (· < ·) (· < ·))

theorem less_wellFounded : WellFounded Less :=
  WellFounded.prod_lex Nat.lt_wfRel.wf (WellFounded.prod_lex Nat.lt_wfRel.wf Nat.lt_wfRel.wf)

theorem Less.of_le {a a' : Nat} {x x' : Nat × Nat} (hle : a' ≤ a)
    (h : Prod.Lex (· < ·) (· < ·) x' x) : Less (a', x') (a, x) := by
  rcases Nat.lt_or_eq_of_le hle with hlt | rfl
  · exact Prod.Lex.left _ _ hlt
  · exact Prod.Lex.right _ h

section

variable {p : Params} {env : Env} {w w' : Worker} {e : Effect}

theorem Worker.unread_pos (hrun : ∀ r, w.pc ≠ .ended r) : w.unread = w.inbox.length + 1 := by
  unfold unread
  split
  · next r hpc => exact absurd hpc (hrun r)
  · rfl

/-- A worker that has ended has nothing left to do. -/
theorem Worker.less_of_ended (hrun : ∀ r, w.pc ≠ .ended r) {r : Except Error Unit}
    (hpc : w'.pc = .ended r) : Less w'.toDo w.toDo := by
  refine Prod.Lex.left _ _ ?_
  rw [Worker.unread_pos hrun, Worker.unread, hpc]
  exact Nat.succ_pos _

/-- A worker that reads no more than it did and gets on. -/
theorem Worker.less_of_ahead (hrun : ∀ r, w.pc ≠ .ended r) (hinbox : w'.inbox.length ≤ w.inbox.length)
    (hpc : w'.pc.ahead < w.pc.ahead) : Less w'.toDo w.toDo := by
  by_cases hrun' : ∀ r, w'.pc ≠ .ended r
  · refine Less.of_le ?_ (Prod.Lex.left _ _ hpc)
    rw [unread_pos hrun, unread_pos hrun']
    omega
  · obtain ⟨r, hr⟩ := not_forall.1 hrun'
    exact less_of_ended hrun (not_not.1 hr)

/-- **Every step leaves less to do.** -/
theorem WorkerMove.less (h : WorkerMove p env w w' e) : Less w'.toDo w.toDo := by
  have hheader : HEADER_LEN = 32 := rfl
  cases h with
  | skips hpc hlen hdec htype =>
      refine Prod.Lex.left _ _ ?_
      simp only [Worker.unread, hpc, List.length_drop]
      omega
  | opens hpc hlen hdec htype hacc =>
      refine Prod.Lex.left _ _ ?_
      simp only [Worker.unread, hpc, List.length_drop]
      omega
  | closes hpc hshort heof hcur => exact Worker.less_of_ended (by simp [hpc]) rfl
  | fails inbox err hpc hrun => exact Worker.less_of_ended hrun rfl
  | @buffers c n hpc hcur hn =>
      refine Worker.less_of_ahead (by simp [hpc]) ?_ ?_
      · rw [List.length_drop]
        exact Nat.sub_le _ _
      · simp only [hpc]
        split <;> simp [WorkerPc.ahead]
  | @writes c s done n hpc hcur hs hn hfits =>
      refine Less.of_le (Nat.le_of_eq ?_) ?_
      · simp only [Worker.unread, hpc]
      · simp only [hpc, WorkerPc.ahead]
        refine Prod.Lex.right _ ?_
        simp only [Worker.left, hpc]
        omega
  | @reports complete done hpc =>
      refine Worker.less_of_ahead (by simp [hpc]) (Nat.le_refl _) ?_
      cases complete <;> simp [hpc, WorkerPc.ahead]
  | givesUp hpc hcur => exact Worker.less_of_ended (by simp [hpc]) rfl
  | @checkpoints c s pc pc' e hpc hcur hs hmove =>
      cases hmove with
      | writes snapshot tmp hn hfits =>
          rw [Resume.length_record] at hfits
          refine Less.of_le (Nat.le_of_eq ?_) ?_
          · simp only [Worker.unread, hpc]
          · simp only [hpc, WorkerPc.ahead]
            refine Prod.Lex.right _ ?_
            simp only [Worker.left, hpc, recordLength]
            omega
      | _ =>
          exact Worker.less_of_ahead (by simp [hpc]) (Nat.le_refl _) (by simp [hpc, WorkerPc.ahead])
  | @checkpointed c s pc r e hpc hcur hs hmove =>
      refine Worker.less_of_ahead (by simp [hpc]) (Nat.le_refl _) ?_
      cases pc <;> simp [hpc, WorkerPc.ahead]
  | _ =>
      exact Worker.less_of_ahead (by simp [*]) (Nat.le_refl _)
        (by simp [*, WorkerPc.ahead, Worker.finishChunk])

/-- **A worker takes finitely many steps** on the bytes it has, whatever the others do. -/
theorem Worker.step_wellFounded (p : Params) :
    WellFounded fun w' w : Worker => ∃ env io e, w.step p env io = some (w', e) :=
  Subrelation.wf (fun ⟨_, _, _, h⟩ => (Worker.step_moves h).less)
    (InvImage.wf Worker.toDo less_wellFounded)

end

/-! ## There is a next step -/

/-- What is written of a record is no longer than it. -/
def Worker.Within (w : Worker) : Prop :=
  ∀ snapshot tmp done, w.pc = .checkpoint (.writeTmp snapshot tmp done) →
    done ≤ recordLength snapshot

/-- The disk refuses the call the worker makes next. -/
def Worker.Refused (env : Env) (w : Worker) : Prop :=
  ∃ c s snapshot, w.current = some c ∧ env.files.lookup c.fileId = some s ∧
    ((w.pc = .checkpoint (.createTmp snapshot) ∧ env.disk.create (tmpPath s.sink.path) = none) ∨
      ∃ tmp, w.pc = .checkpoint (.renameTmp snapshot tmp) ∧
        env.disk.rename (tmpPath s.sink.path) (statePath s.sink.path) = none)

section

variable {p : Params} {env : Env} {w w' : Worker} {e : Effect}

theorem Worker.Within.step (h : w.Within) (hmove : WorkerMove p env w w' e) : w'.Within := by
  have hother : (∀ pc, w'.pc ≠ .checkpoint pc) → w'.Within := fun hne snapshot tmp done hpc =>
    absurd hpc (hne _)
  cases hmove with
  | skips hpc hlen hdec htype => exact h
  | @buffers c n hpc hcur hn =>
      refine hother fun pc heq => ?_
      simp only at heq
      split at heq <;> cases heq
  | @reports complete done hpc =>
      refine hother fun pc heq => ?_
      cases complete <;> cases heq
  | resets hpc hcur =>
      intro snapshot tmp done heq
      cases heq
  | checkpoints hpc hcur hs hmove =>
      intro snapshot tmp done heq
      cases heq
      cases hmove with
      | creates snapshot hcreate => exact Nat.zero_le _
      | writes snapshot tmp hn hfits =>
          rw [Resume.length_record] at hfits
          exact hfits
  | _ => exact hother fun pc heq => by cases heq

/-- **A worker goes on** once its stream has ended, unless the disk refuses. -/
theorem Worker.goes_on (hsnug : w.Snug) (hfits : w.Fits p.blake3 env.files) (hwithin : w.Within)
    (hhashed : env.files.Hashed) (hclosed : w.closed ≠ none) (hrun : ∀ r, w.pc ≠ .ended r) :
    (∃ io x, io ≠ .fail ∧ w.step p env io = some x) ∨ w.Refused env := by
  obtain ⟨how, hhow⟩ := Option.ne_none_iff_exists'.1 hclosed
  by_cases hheader : w.pc = .header
  · refine .inl ⟨.next, ?_⟩
    have hread : ∃ w', w.readHeader env.files = some w' := by
      unfold readHeader
      split
      · simp only
        split
        · exact ⟨_, rfl⟩
        · split
          · exact ⟨_, rfl⟩
          · split <;> exact ⟨_, rfl⟩
          · exact ⟨_, rfl⟩
          · exact ⟨_, rfl⟩
      · rw [hhow]
        cases how <;> exact ⟨_, rfl⟩
    obtain ⟨w', hw'⟩ := hread
    refine ⟨(w', .quiet), (fun heq => by cases heq), ?_⟩
    simp [step, hheader, hw']
  · obtain ⟨c, hcur⟩ := hsnug.busy hheader hrun
    obtain ⟨s, hs, hof⟩ := hfits.current c hcur
    have hstep : ∀ io, w.step p env io = w.stepChunk p env c s w.pc io := by
      intro io
      unfold step
      split
      · next r hpc => exact absurd hpc (hrun r)
      · next hpc => exact absurd hpc hheader
      · simp only [hcur, hs]
    have hgo : ∀ io x, io ≠ .fail → w.stepChunk p env c s w.pc io = some x →
        (∃ io x, io ≠ .fail ∧ w.step p env io = some x) ∨ w.Refused env :=
      fun io x hio hx => .inl ⟨io, x, hio, (hstep io).trans hx⟩
    have hnext : IoAct.next ≠ .fail := fun heq => by cases heq
    have hwrite : IoAct.write 1 ≠ .fail := fun heq => by cases heq
    cases hpc : w.pc with
    | ended r => exact absurd hpc (hrun r)
    | header => exact absurd hpc hheader
    | payload n =>
        have hread : ∃ w', w.readPayload c n = some w' := by
          unfold readPayload
          split
          · exact ⟨_, rfl⟩
          · rw [hhow]
            exact ⟨_, rfl⟩
        obtain ⟨w', hw'⟩ := hread
        exact hgo .next (w', .quiet) hnext (by simp [stepChunk, hpc, hw'])
    | verify =>
        have hindex : c.chunkIndex < s.chunkHashes.length := by
          rw [hhashed _ s hs]
          exact hof.index
        obtain ⟨digest, hdigest⟩ : ∃ digest, s.chunkHashes[c.chunkIndex]? = some digest :=
          ⟨_, List.getElem?_eq_getElem hindex⟩
        by_cases hd : hashChunk p.blake3 w.buf = digest
        · exact hgo .next ({ w with pc := .write 0 }, .quiet) hnext
            (by simp [stepChunk, hpc, hdigest, hd])
        · exact hgo .next (w.stop (.error (.chunkVerificationFailed c.start)), .quiet) hnext
            (by simp [stepChunk, hpc, hdigest, hd])
    | write done =>
        by_cases hdone : done = w.buf.length
        · exact hgo .next _ hnext (by rw [hpc]; exact if_pos hdone)
        · have hle := hsnug.written done hpc
          exact hgo (.write 1) _ hwrite (by rw [hpc]; exact if_pos (by omega))
    | mark =>
        cases hset : s.bitmap.set c.chunkIndex with
        | error err =>
            exact hgo .next (w.stop (.error (.wire err)), .quiet) hnext
              (by simp [stepChunk, hpc, hset])
        | ok b =>
            exact hgo .next ({ w with pc := .count b.isComplete }, .setBit c.fileId c.chunkIndex)
              hnext (by simp [stepChunk, hpc, hset])
    | count complete => exact hgo .next _ hnext (by rw [hpc]; rfl)
    | report complete done => exact hgo .next _ hnext (by rw [hpc]; rfl)
    | announce => exact hgo .next _ hnext (by rw [hpc]; rfl)
    | due =>
        by_cases hoff : p.checkpointBytes = 0
        · exact hgo .next _ hnext (by rw [hpc]; exact if_pos hoff)
        · exact hgo .next _ hnext (by rw [hpc]; exact if_neg hoff)
    | tryLock =>
        cases htaken : s.checkpointing with
        | true => exact hgo .next _ hnext (by rw [hpc]; exact if_pos htaken)
        | false => exact hgo .next _ hnext (by rw [hpc]; exact if_neg (by simp [htaken]))
    | reset => exact hgo .next _ hnext (by rw [hpc]; rfl)
    | release result => exact hgo .next _ hnext (by rw [hpc]; rfl)
    | checkpoint pc =>
        have hsave : ∀ io next e, io ≠ .fail →
            checkpointStep p.blake3 env.disk s pc io = some (next, e) →
            (∃ io x, io ≠ .fail ∧ w.step p env io = some x) ∨ w.Refused env := by
          intro io next e hio hcp
          cases next with
          | goOn pc' =>
              exact hgo io ({ w with pc := .checkpoint pc' }, e) hio
                (by rw [hpc]; simp only [stepChunk, hcp])
          | done r =>
              exact hgo io ({ w with pc := .release r }, e) hio
                (by rw [hpc]; simp only [stepChunk, hcp])
        cases pc with
        | snapshot =>
            by_cases hzero : s.bitmap.setCount = 0
            · exact hsave .next _ _ hnext (if_pos hzero)
            · exact hsave .next _ _ hnext (if_neg hzero)
        | syncData snapshot => exact hsave .next _ _ hnext rfl
        | createTmp snapshot =>
            cases hcreate : env.disk.create (tmpPath s.sink.path) with
            | none => exact .inr ⟨c, s, snapshot, hcur, hs, .inl ⟨hpc, hcreate⟩⟩
            | some x =>
                exact hsave .next (.goOn (.writeTmp snapshot x.2 0))
                  (.createFile (tmpPath s.sink.path)) hnext (by simp only [checkpointStep, hcreate])
        | writeTmp snapshot tmp done =>
            have hle := hwithin snapshot tmp done hpc
            have hlen := Resume.length_record p.blake3 s.key snapshot
            by_cases hdone : done = (Resume.record p.blake3 s.key snapshot).length
            · exact hsave .next _ _ hnext (if_pos hdone)
            · refine hsave (.write 1) _ _ hwrite (if_pos ⟨Nat.one_pos, ?_⟩)
              rw [hlen] at hdone ⊢
              rw [recordLength] at hle
              omega
        | syncTmp snapshot tmp => exact hsave .next _ _ hnext rfl
        | renameTmp snapshot tmp =>
            cases hrename : env.disk.rename (tmpPath s.sink.path) (statePath s.sink.path) with
            | none => exact .inr ⟨c, s, snapshot, hcur, hs, .inr ⟨tmp, hpc, hrename⟩⟩
            | some d =>
                exact hsave .next (.done (.ok ()))
                  (.rename (tmpPath s.sink.path) (statePath s.sink.path)) hnext
                  (by simp only [checkpointStep, hrename])

end

/-! ## A run -/

/-- The bytes that arrive on stream `i`. -/
def SessionAct.bytesOn (i : Nat) : SessionAct → List UInt8
  | .deliver j bytes => if j = i then bytes else []
  | _ => []

/-- All of them, first to last. -/
def delivered (i : Nat) (as : List SessionAct) : List UInt8 :=
  as.flatMap (SessionAct.bytesOn i)

/-- What a worker makes of its stream from here is what the grammar says of the stream from its start,
    of which `past` has arrived. -/
structure Worker.Parsing (blake3 : Blake3) (files : Files) (env : Env) (past : List UInt8)
    (w : Worker) : Prop where
  snug : w.Snug
  fits : w.Fits blake3 env.files
  within : w.Within
  accepts : w.closed ≠ some .failed → ∀ more, (w.closed ≠ none → more = []) →
    (w.Accepts blake3 files (w.inbox ++ more) ↔ files.Parses blake3 none [] (past ++ more))

/-- Worker `i` reads the stream of which `past` brought the bytes, and the files are the ones it
    started with. -/
structure Session.Parsing (blake3 : Blake3) (files : Files) (i : Nat) (past : List SessionAct)
    (s : Session) : Prop where
  hashed : s.env.files.Hashed
  book : s.env.files.book = files.book
  reads : ∃ w, s.workers[i]? = some w ∧ w.Parsing blake3 files s.env (delivered i past)

section

variable {p : Params} {env : Env} {files : Files} {w w' : Worker} {e : Effect} {past : List UInt8}

theorem WorkerMove.closed_eq (h : WorkerMove p env w w' e) : w'.closed = w.closed := by
  cases h <;> rfl

theorem Worker.Parsing.apply (h : w.Parsing p.blake3 files env past) (e : Effect) :
    w.Parsing p.blake3 files (env.apply e) past :=
  ⟨h.snug, h.fits.mono (Env.sameStates_apply env e), h.within, h.accepts⟩

/-- Bytes arrive. -/
theorem Worker.Parsing.deliver (h : w.Parsing p.blake3 files env past) (hopen : w.closed = none)
    (bytes : List UInt8) :
    ({ w with inbox := w.inbox ++ bytes } : Worker).Parsing p.blake3 files env (past ++ bytes) := by
  have hsnug := h.snug
  have hfits := h.fits
  refine ⟨⟨hsnug.empty, hsnug.top, hsnug.filling, hsnug.full, hsnug.bounded, hsnug.busy,
    hsnug.written⟩, ⟨hfits.current, hfits.filling, hfits.full, hfits.payload⟩, h.within,
    fun hclosed more _ => ?_⟩
  have hall := h.accepts hclosed (bytes ++ more) fun hne => absurd hopen hne
  simp only [List.append_assoc]
  exact hall

/-- The stream ends. -/
theorem Worker.Parsing.close (h : w.Parsing p.blake3 files env past) (hopen : w.closed = none)
    (how : Closing) :
    ({ w with closed := some how } : Worker).Parsing p.blake3 files env past := by
  have hsnug := h.snug
  have hfits := h.fits
  refine ⟨⟨hsnug.empty, hsnug.top, hsnug.filling, hsnug.full, hsnug.bounded, hsnug.busy,
    hsnug.written⟩, ⟨hfits.current, hfits.filling, hfits.full, hfits.payload⟩, h.within,
    fun _ more _ => ?_⟩
  exact h.accepts (by rw [hopen]; exact fun heq => by cases heq) more fun hne => absurd hopen hne

/-- The worker takes a step. -/
theorem Worker.Parsing.step (h : w.Parsing p.blake3 files env past)
    (hbook : env.files.book = files.book) {io : IoAct} (hio : io ≠ .fail)
    (hstep : w.step p env io = some (w', e)) : w'.Parsing p.blake3 files (env.apply e) past := by
  have hmove := Worker.step_moves hstep
  refine ⟨h.snug.step hmove, (h.fits.step hmove).mono (Env.sameStates_apply env e),
    h.within.step hmove, fun hclosed more hmore => ?_⟩
  rw [hmove.closed_eq] at hclosed hmore
  exact (Worker.accepts_step hbook hclosed hio hmore hstep).trans
    (h.accepts hclosed more hmore)

theorem Worker.Parsing.fresh : Worker.fresh.Parsing p.blake3 files env [] :=
  ⟨Worker.Snug.fresh, Worker.Fits.fresh, (fun _ _ _ h => by cases h), fun _ _ _ => Iff.rfl⟩

/-- **Every step of the session** leaves worker `i` reading its stream. -/
theorem Session.Parsing.step {i : Nat} {past : List SessionAct} {s s' : Session} {a : SessionAct}
    (h : s.Parsing p.blake3 files i past) (ha : a ≠ .worker i .fail)
    (hstep : s.step p a = some s') : s'.Parsing p.blake3 files i (past ++ [a]) := by
  obtain ⟨e, he, hmove⟩ := Session.step_moves hstep
  have henv := hmove.env_eq
  have hhashed : s'.env.files.Hashed := by
    rw [henv]
    exact h.hashed.apply e
  have hbook : s'.env.files.book = files.book := by
    rw [henv, Files.book_apply]
    exact h.book
  have hpast : delivered i (past ++ [a]) = delivered i past ++ a.bytesOn i := by
    rw [delivered, delivered, List.flatMap_append, List.flatMap_singleton]
  obtain ⟨w, hw, hreads⟩ := h.reads
  refine ⟨hhashed, hbook, ?_⟩
  rw [hpast, henv]
  -- the worker itself is not touched
  have haside : s'.workers[i]? = some w → a.bytesOn i = [] →
      ∃ w', s'.workers[i]? = some w' ∧
        w'.Parsing p.blake3 files (s.env.apply e) (delivered i past ++ a.bytesOn i) := by
    intro hw' hnil
    rw [hnil, List.append_nil]
    exact ⟨w, hw', hreads.apply e⟩
  cases Session.stepEffect_cases he with
  | @deliver j bytes v hv hopen =>
      by_cases hij : j = i
      · subst hij
        obtain rfl := Option.some.inj (hw.symm.trans hv)
        refine ⟨_, List.getElem?_set_eq_of_lt _ (List.getElem?_eq_some_iff.1 hw).1, ?_⟩
        simp only [SessionAct.bytesOn, if_true, Env.apply_quiet]
        exact hreads.deliver hopen bytes
      · refine haside ?_ (if_neg hij)
        simp only
        rw [List.getElem?_set_ne hij]
        exact hw
  | @close j how v hv hopen =>
      by_cases hij : j = i
      · subst hij
        obtain rfl := Option.some.inj (hw.symm.trans hv)
        refine ⟨_, List.getElem?_set_eq_of_lt _ (List.getElem?_eq_some_iff.1 hw).1, ?_⟩
        simp only [SessionAct.bytesOn, List.append_nil, Env.apply_quiet]
        exact hreads.close hopen how
      · refine haside ?_ rfl
        simp only
        rw [List.getElem?_set_ne hij]
        exact hw
  | @worker j io v v' e hv hmove' =>
      by_cases hij : j = i
      · subst hij
        obtain rfl := Option.some.inj (hw.symm.trans hv)
        refine ⟨_, List.getElem?_set_eq_of_lt _ (List.getElem?_eq_some_iff.1 hw).1, ?_⟩
        simp only [SessionAct.bytesOn, List.append_nil]
        exact hreads.step h.book (fun hio => ha (by rw [hio])) hmove'
      · refine haside ?_ rfl
        simp only
        rw [List.getElem?_set_ne hij]
        exact hw
  | accept hmain =>
      refine haside ?_ rfl
      simp only
      rw [List.getElem?_append_left (List.getElem?_eq_some_iff.1 hw).1]
      exact hw
  | refuse hmain => exact haside hw rfl
  | join hmain hended horder hnext => exact haside hw rfl
  | main hmain => exact haside hw rfl

end

/-! ## The language -/

/-- **Whole frames are read back in one way**, so what is left over is left over for good. -/
theorem Frame.flatMap_bytes_append {fs gs : List Frame} {part : List UInt8}
    (hpart : part.length < HEADER_LEN)
    (h : fs.flatMap Frame.bytes ++ part = gs.flatMap Frame.bytes) : part = [] := by
  induction fs generalizing gs with
  | nil =>
      cases gs with
      | nil => exact h
      | cons g gs =>
          have hle := g.header_le_length
          rw [List.flatMap_nil, List.nil_append, List.flatMap_cons] at h
          rw [h, List.length_append] at hpart
          omega
  | cons f fs ih =>
      cases gs with
      | nil =>
          have hle := f.header_le_length
          have hlen := congrArg List.length h
          rw [List.flatMap_cons, List.append_assoc, List.length_append, List.flatMap_nil,
            List.length_nil] at hlen
          rw [HEADER_LEN] at hle
          omega
      | cons g gs =>
          rw [List.flatMap_cons, List.append_assoc, List.flatMap_cons] at h
          -- the two first frames have the same header, and so the same length
          have hheader : f.header = g.header := by
            have hdec := f.decode_bytes (fs.flatMap Frame.bytes ++ part)
            rw [h, g.decode_bytes] at hdec
            exact (Except.ok.inj hdec).symm
          have hlen : f.bytes.length = g.bytes.length := by
            rw [bytes, bytes, List.length_append, List.length_append, f.length_eq, g.length_eq,
                hheader]
          exact ih (List.append_inj h hlen).2

namespace Files

variable {blake3 : Blake3} {files : Files} {bytes : List UInt8}

theorem StreamsTaken.streams (h : files.StreamsTaken blake3 bytes) :
    files.Streams blake3 bytes := by
  obtain ⟨fs, runs, heq, hkinds, hruns, hall⟩ := h
  refine ⟨fs, runs, heq, hkinds, hruns, fun run hrun => ?_⟩
  obtain ⟨id, s, i, hs, hcarry, -, -⟩ := hall run hrun
  exact ⟨id, s, i, hs, hcarry⟩

/-- **What is read from the start** is a stream, in runs a worker takes, and then less than a
    header. -/
theorem parses_none_iff : files.Parses blake3 none [] bytes ↔
    ∃ stream part, bytes = stream ++ part ∧ files.StreamsTaken blake3 stream ∧
      part.length < HEADER_LEN := by
  constructor
  · rintro ⟨fs, part, heq, hpart, htakes⟩
    obtain ⟨hkinds, runs, hruns, hall⟩ := (takes_iff Open.none).1 htakes
    exact ⟨fs.flatMap Frame.bytes, part, heq, ⟨fs, runs, rfl, hkinds, hruns, hall⟩, hpart⟩
  · rintro ⟨stream, part, heq, ⟨fs, runs, rfl, hkinds, hruns, hall⟩, hpart⟩
    exact ⟨fs, part, heq, hpart, (takes_iff Open.none).2 ⟨hkinds, runs, hruns, hall⟩⟩

/-- Bytes that stop inside a header are no stream. -/
theorem StopsInHeader.not_streams (h : files.StopsInHeader blake3 bytes) :
    ¬ files.Streams blake3 bytes := by
  obtain ⟨stream, part, rfl, ⟨fs, -, rfl, -, -, -⟩, hpos, hpart⟩ := h
  rintro ⟨gs, -, heq, -, -, -⟩
  rw [Frame.flatMap_bytes_append hpart heq] at hpos
  exact absurd hpos (Nat.lt_irrefl 0)

/-- **When what is read is the grammar.** -/
theorem parses_iff_streams_iff :
    (files.Parses blake3 none [] bytes ↔ files.Streams blake3 bytes) ↔
      ¬ files.StopsInHeader blake3 bytes ∧
        (files.Streams blake3 bytes → files.StreamsTaken blake3 bytes) := by
  -- what is read and does not stop inside a header is a stream
  have htaken : files.Parses blake3 none [] bytes → ¬ files.StopsInHeader blake3 bytes →
      files.StreamsTaken blake3 bytes := by
    intro hparses hnot
    obtain ⟨stream, part, rfl, hstream, hpart⟩ := parses_none_iff.1 hparses
    have hnil : part = [] := by
      by_contra hne
      exact hnot ⟨stream, part, rfl, hstream, List.length_pos_iff.2 hne, hpart⟩
    rwa [hnil, List.append_nil]
  constructor
  · intro hiff
    have hnot : ¬ files.StopsInHeader blake3 bytes := by
      intro hin
      obtain ⟨stream, part, heq, hstream, -, hpart⟩ := id hin
      exact hin.not_streams (hiff.1 (parses_none_iff.2 ⟨stream, part, heq, hstream, hpart⟩))
    exact ⟨hnot, fun hstream => htaken (hiff.2 hstream) hnot⟩
  · rintro ⟨hnot, htakes⟩
    refine ⟨fun hparses => (htaken hparses hnot).streams, fun hstream => ?_⟩
    exact parses_none_iff.2 ⟨bytes, [], (List.append_nil _).symm, htakes hstream, by decide⟩

end Files

/-- **The language of `drain_stream`.** Of a worker whose stream has ended, on any files with a digest
    for every chunk, whatever the other workers do, and with no failing call of its own: if it has
    ended, it has returned `Ok` exactly for the streams of the grammar if and only if the bytes do not
    stop inside a header between two chunks, and are a stream in runs a worker takes if they are one
    at all; if it has not ended, it goes on, unless the disk refuses; and it cannot go on for ever. -/
theorem drain_stream_accepts_iff {p : Params} {i : Nat} {s₀ s : Session} {as : List SessionAct}
    {w : Worker} (hhashed : s₀.env.files.Hashed) (hfresh : s₀.workers[i]? = some Worker.fresh)
    (hio : SessionAct.worker i .fail ∉ as) (hrun : s₀.runs p as = some s)
    (hw : s.workers[i]? = some w) (heof : w.closed = some .eof) :
    (∀ r, w.pc = .ended r →
      ((r = .ok () ↔ s₀.env.files.Streams p.blake3 (delivered i as)) ↔
        ¬ s₀.env.files.StopsInHeader p.blake3 (delivered i as) ∧
          (s₀.env.files.Streams p.blake3 (delivered i as) →
            s₀.env.files.StreamsTaken p.blake3 (delivered i as)))) ∧
    ((∀ r, w.pc ≠ .ended r) →
      (∃ io x, io ≠ .fail ∧ w.step p s.env io = some x) ∨ w.Refused s.env) ∧
    WellFounded fun v w : Worker => ∃ env io e, w.step p env io = some (v, e) := by
  have hstart : s₀.Parsing p.blake3 s₀.env.files i [] :=
    ⟨hhashed, rfl, Worker.fresh, hfresh, Worker.Parsing.fresh (p := p)⟩
  have hparsing : s.Parsing p.blake3 s₀.env.files i ([] ++ as) := by
    refine Run.invariant_history (I := fun past s => s.Parsing p.blake3 s₀.env.files i past)
      (P := fun a => a ≠ .worker i .fail) (fun past s a s' hs ha hstep => hs.step ha hstep)
      hstart (fun a ha heq => ?_) hrun
    exact hio (heq ▸ ha)
  rw [List.nil_append] at hparsing
  obtain ⟨v, hv, hreads⟩ := hparsing.reads
  obtain rfl := Option.some.inj (hv.symm.trans hw)
  have hclosed : v.closed ≠ none := by
    rw [heof]
    exact fun heq => by cases heq
  refine ⟨fun r hr => ?_, fun hgoing => ?_, Worker.step_wellFounded p⟩
  · have hfailed : v.closed ≠ some .failed := by
      rw [heof]
      exact fun heq => by cases heq
    have haccepts := hreads.accepts hfailed [] fun _ => rfl
    rw [List.append_nil, List.append_nil] at haccepts
    have hresult : v.Accepts p.blake3 s₀.env.files v.inbox ↔ r = .ok () := by
      cases r with
      | ok u => simp [Worker.Accepts, hr]
      | error e => simp [Worker.Accepts, hr]
    rw [← hresult, haccepts]
    exact Files.parses_iff_streams_iff
  · exact Worker.goes_on hreads.snug hreads.fits hreads.within hparsing.hashed hclosed hgoing

def WorkerPc.endedOk : WorkerPc → Bool
  | .ended (.ok _) => true
  | _ => false

theorem WorkerPc.eq_of_endedOk {pc : WorkerPc} (h : pc.endedOk = true) : pc = .ended (.ok ()) := by
  unfold endedOk at h
  split at h
  · rfl
  · cases h

/-- The files of a session over the one file `a`. -/
def isSingle (files : Files) : Bool :=
  (files.lookup 0).any fun st => decide (st.layout = oneByteLayout ∧ st.chunkHashes = [digestA] ∧
    st.bitmap.count = 1)

/-- A stream of a session over the one file `a`, read to its end, found by evaluation. -/
theorem exists_drained (as : List SessionAct)
    (h : ((offerLoop uncheckpointed.blake3 plainConfig ["out"] 65536 (.init .empty)
        singleOffer).toOption.any fun st =>
      ((Session.start st 1).runs uncheckpointed (.accept :: as)).any fun s =>
        isSingle st.files && (s.workers[0]?).any fun w => decide (w.closed = some .eof) &&
          w.pc.endedOk) = true) :
    ∃ (s₀ s : Session) (w : Worker), isSingle s₀.env.files = true ∧ s₀.env.files.Hashed ∧
      s₀.workers[0]? = some Worker.fresh ∧ s₀.runs uncheckpointed as = some s ∧
      s.workers[0]? = some w ∧ w.closed = some .eof ∧ w.pc = .ended (.ok ()) := by
  obtain ⟨st, s, hoffer, hrun, hcheck⟩ := exists_run uncheckpointed singleOffer 1 (.accept :: as) _ h
  obtain ⟨m, hm, hrest⟩ := Run.runs_cons_some hrun
  cases hm
  rw [Bool.and_eq_true] at hcheck
  obtain ⟨w, hw, hended⟩ := (Option.any_eq_true _ _).1 hcheck.2
  rw [Bool.and_eq_true, decide_eq_true_eq] at hended
  exact ⟨_, s, w, hcheck.1, (unspent_offerLoop hoffer).hashed, rfl, hrest, hw, hended.1,
    WorkerPc.eq_of_endedOk hended.2⟩

/-- The file arrives and the stream ends. -/
def singleStream : List SessionAct :=
  receiveOneByte 0 0 0x41 ++ [.worker 0 .next, .close 0 .eof, .worker 0 .next]

/-- The first byte of a header arrives and the stream ends. -/
def truncatedStream : List SessionAct :=
  [.deliver 0 [0x10], .close 0 .eof, .worker 0 .next]

/-- The frame of the whole file `a`. -/
def frameA : Frame where
  header := FrameHeader.new .fileData 0 0 1
  payload := [0x41]
  valid := ⟨by decide, by decide, by decide⟩
  length_eq := rfl

theorem streamsTaken_frameA {files : Files} (h : isSingle files = true) :
    files.StreamsTaken shortFileHash frameA.bytes := by
  obtain ⟨st, hst, hcheck⟩ := (Option.any_eq_true _ _).1 h
  obtain ⟨hlayout, hhashes, hcount⟩ := of_decide_eq_true hcheck
  have hpayload : IsPayload shortFileHash st.layout st.chunkHashes 0 [0x41] := by
    rw [hlayout, hhashes]
    exact ⟨by decide, by decide, by decide +kernel⟩
  have hcarry : Frame.Carry shortFileHash 0 st 0 [frameA] := by
    refine ⟨fun f hf => ?_, ⟨?_, trivial⟩, hpayload⟩
    · rw [List.mem_singleton.1 hf]
      rfl
    · rw [ChunkLayout.start, Nat.zero_mul]
      rfl
  refine ⟨[frameA], [[frameA]], (List.append_nil _).symm, ?_, rfl, ?_⟩
  · intro f hf
    rw [List.mem_singleton.1 hf]
    exact Or.inr rfl
  · intro run hrun
    rw [List.mem_singleton.1 hrun]
    exact ⟨0, st, 0, hst, hcarry, by simp [Frame.Tight, frameA], by omega⟩

/-- The stream of the file `a` is taken for what it is, and the first byte of a header for a stream. -/
theorem drain_stream_accepts_iff_single :
    (∃ (s₀ : Session) (w : Worker), w.pc = .ended (.ok ()) ∧
      s₀.env.files.Streams shortFileHash (delivered 0 singleStream)) ∧
    ∃ (s₀ : Session) (w : Worker), w.pc = .ended (.ok ()) ∧
      ¬ s₀.env.files.Streams shortFileHash (delivered 0 truncatedStream) := by
  constructor
  · obtain ⟨s₀, s, w, hsingle, hhashed, hfresh, hrun, hw, heof, hpc⟩ :=
      exists_drained singleStream (by decide +kernel)
    have htaken : s₀.env.files.StreamsTaken shortFileHash (delivered 0 singleStream) :=
      streamsTaken_frameA hsingle
    have hiff := (drain_stream_accepts_iff (p := uncheckpointed) hhashed hfresh (by decide +kernel)
      hrun hw heof).1 _ hpc
    exact ⟨s₀, w, hpc, (hiff.2 ⟨fun hstops => hstops.not_streams htaken.streams,
      fun _ => htaken⟩).1 rfl⟩
  · obtain ⟨s₀, s, w, -, hhashed, hfresh, hrun, hw, heof, hpc⟩ :=
      exists_drained truncatedStream (by decide +kernel)
    have hstops : s₀.env.files.StopsInHeader shortFileHash (delivered 0 truncatedStream) :=
      ⟨[], [0x10], rfl, ⟨[], [], rfl, by simp, rfl, by simp⟩, by decide, by decide⟩
    have hiff := (drain_stream_accepts_iff (p := uncheckpointed) hhashed hfresh (by decide +kernel)
      hrun hw heof).1 _ hpc
    exact ⟨s₀, w, hpc, fun hstream => (hiff.1 (iff_of_true rfl hstream)).1 hstops⟩

/-- A stream that stops inside a header is taken for one that was closed. -/
theorem truncated_header_accepted :
    ¬ ∀ (p : Params) (i : Nat) (s₀ s : Session) (as : List SessionAct) (w : Worker)
      (r : Except Error Unit), s₀.env.files.Hashed → s₀.workers[i]? = some Worker.fresh →
      SessionAct.worker i .fail ∉ as → s₀.runs p as = some s → s.workers[i]? = some w →
      w.closed = some .eof → w.pc = .ended r →
      (r = .ok () ↔ s₀.env.files.Streams p.blake3 (delivered i as)) := by
  intro hclaim
  obtain ⟨s₀, s, w, -, hhashed, hfresh, hrun, hw, heof, hpc⟩ :=
    exists_drained truncatedStream (by decide +kernel)
  have hstream := (hclaim uncheckpointed 0 s₀ s truncatedStream w _ hhashed hfresh
    (by decide +kernel) hrun hw heof hpc).1 rfl
  obtain ⟨fs, -, heq, -, -, -⟩ := hstream
  have hflat : ([] : List Frame).flatMap Frame.bytes ++ [0x10] = fs.flatMap Frame.bytes := heq
  cases Frame.flatMap_bytes_append (by decide) hflat

end AetherLink
