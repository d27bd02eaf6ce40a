import AetherLink.Core.Release
import AetherLink.Proofs.Queue

set_option autoImplicit false

/-! # Released pages are never in use

The invariant is `Releasing.Behind`: what has been released of a file ends at or before the start of
every chunk in flight and of every chunk still queued. It holds because chunks are registered as they
leave the queue, and they leave it in ascending order. -/

namespace AetherLink

/-! ## Pages -/

theorem pageSize_pos (raw : Int64) : 0 < pageSize raw := by
  unfold pageSize
  split
  · omega
  · omega

theorem pageSize_lt (raw : Int64) : pageSize raw < 2 ^ 63 := by
  have hlt := raw.toInt_lt
  unfold pageSize
  split
  · omega
  · omega

theorem le_divCeil_mul (a : Nat) {b : Nat} (hb : 0 < b) : a ≤ divCeil a b * b := by
  have hdiv := Nat.div_add_mod (a + b - 1) b
  have hmod := Nat.mod_lt (a + b - 1) hb
  rw [divCeil, Nat.mul_comm]
  omega

theorem divCeil_mul_lt (a : Nat) {b : Nat} (hb : 0 < b) : divCeil a b * b < a + b := by
  have hle := Nat.div_mul_le_self (a + b - 1) b
  rw [divCeil]
  omega

/-- What `release_range` advises is whole pages inside the range. -/
theorem MappedFile.releaseRange_inside (src : MappedFile) {start stop offset len : Nat}
    (hstart : start ≤ src.map.length) (hstop : stop ≤ src.map.length)
    (h : src.releaseRange start stop = some (offset, len)) :
    pageSize src.raw ∣ offset ∧ pageSize src.raw ∣ len ∧ 0 < len ∧
      start ≤ offset ∧ offset + len ≤ stop := by
  have hps := pageSize_pos src.raw
  have hlt := src.length_lt
  have hfirst := le_divCeil_mul start hps
  have hlast := Nat.div_mul_le_self stop (pageSize src.raw)
  -- neither product overflows: the mapping and the page size are each below 2 ^ 63
  have hceil : divCeil start (pageSize src.raw) * pageSize src.raw < 2 ^ 64 := by
    have := divCeil_mul_lt start hps
    have := pageSize_lt src.raw
    omega
  unfold releaseRange at h
  simp only at h
  rw [Nat.mod_eq_of_lt hceil, Nat.mod_eq_of_lt (by omega)] at h
  split at h
  · cases h
  · next hlen =>
      rw [Option.some.injEq, Prod.mk.injEq] at h
      obtain ⟨rfl, rfl⟩ := h
      refine ⟨Nat.dvd_mul_left _ _, ?_, by omega, hfirst, by omega⟩
      exact Nat.dvd_sub (Nat.dvd_mul_left _ _) (Nat.dvd_mul_left _ _)

/-! ## The end of a chunk -/

/-- The one-byte file, mapped. -/
def oneByteSource : SourceFile :=
  { map := [0x41], layout := oneByteLayout, size_eq := rfl }

namespace SourceFile

/-- No file is so long that the product saturates below its end. -/
theorem endOfChunk_eq (src : SourceFile) (index : Nat) :
    src.endOfChunk index = min (src.layout.start index) src.layout.fileSize := by
  have hsize := src.layout.fileSize_lt
  unfold endOfChunk saturatingMul ChunkLayout.start
  omega

/-- In range it is where the chunk begins. -/
theorem endOfChunk_eq_start (src : SourceFile) {i : Nat} (h : i < src.layout.count) :
    src.endOfChunk i = src.layout.start i := by
  rw [endOfChunk_eq, Nat.min_eq_left (Nat.le_of_lt (src.layout.start_lt h))]

theorem endOfChunk_succ (src : SourceFile) {i : Nat} (h : i < src.layout.count) :
    src.endOfChunk (i + 1) = src.layout.start i + src.layout.len i := by
  have hstart := src.layout.start_lt h
  rw [endOfChunk_eq]
  unfold ChunkLayout.start at hstart ⊢
  unfold ChunkLayout.len
  rw [Nat.succ_mul]
  omega

/-- **`end_of_chunk` is the start of the chunk.** For no chunk of any file is it the end of the chunk's
    range: it is the offset the range begins at, so no byte of the chunk lies before it. The end is what
    it gives for the next index. -/
theorem end_of_chunk_is_never_the_end (src : SourceFile) {i offset len : Nat}
    (h : src.layout.range i = .ok (offset, len)) :
    src.endOfChunk i ≠ offset + len ∧ src.endOfChunk i = offset ∧
      src.endOfChunk (i + 1) = offset + len := by
  obtain ⟨hi, heq⟩ := (src.layout.range_ok_iff i (offset, len)).1 h
  obtain ⟨rfl, rfl⟩ := Prod.mk.inj heq
  have hstart := src.endOfChunk_eq_start hi
  have hpos := src.layout.len_pos hi
  exact ⟨by omega, hstart, src.endOfChunk_succ hi⟩

/-- Of the one-byte file the only chunk is the bytes from 0 to 1. -/
theorem end_of_chunk_is_never_the_end_oneByte :
    oneByteSource.endOfChunk 0 ≠ 1 ∧ oneByteSource.endOfChunk 0 = 0 ∧ oneByteSource.endOfChunk 1 = 1 :=
  oneByteSource.end_of_chunk_is_never_the_end
    (show oneByteSource.layout.range 0 = .ok (0, 1) from rfl)

theorem end_of_chunk_not_past_the_chunk :
    ¬ ∀ (src : SourceFile) (i offset len : Nat), i < src.layout.count →
      src.layout.range i = .ok (offset, len) → src.endOfChunk i = offset + len := by
  intro hall
  have hend := hall oneByteSource 0 0 1 (by decide) rfl
  exact absurd hend (by decide)

end SourceFile

/-! ## One cursor -/

namespace ReadCursor

theorem boundaryChunk_le {inFlight : Finset Nat} {nextDispatch i : Nat} (h : i ∈ inFlight) :
    boundaryChunk inFlight nextDispatch ≤ i := by
  obtain ⟨m, hm⟩ := Finset.min_of_mem h
  have hle := Finset.min_le h
  rw [boundaryChunk, hm, WithTop.untopD_coe]
  rw [hm] at hle
  exact WithTop.coe_le_coe.1 hle

/-- A chunk past the dispatch point and past all those in flight is past the boundary. -/
theorem boundaryChunk_le_of_later {inFlight : Finset Nat} {nextDispatch i : Nat}
    (hdispatch : nextDispatch ≤ i) (hflight : ∀ j ∈ inFlight, j < i) :
    boundaryChunk inFlight nextDispatch ≤ i := by
  rcases inFlight.eq_empty_or_nonempty with rfl | ⟨j, hj⟩
  · simpa [boundaryChunk] using hdispatch
  · exact (boundaryChunk_le hj).trans (hflight j hj).le

/-- What `finish` does: the chunk leaves, and either nothing is returned, or the bytes from what was
    released up to a boundary that no later chunk starts before. -/
theorem finish_cases (self : ReadCursor) (index batch chunkSize fileSize : Nat) (hbatch : 0 < batch) :
    ∃ c out, self.finish index batch chunkSize fileSize = (c, out) ∧
      c.inFlight = self.inFlight.erase index ∧ c.nextDispatch = self.nextDispatch ∧
      ((out = none ∧ c.releasedTo = self.releasedTo) ∨
        (out = some (self.releasedTo, c.releasedTo) ∧ self.releasedTo < c.releasedTo ∧
          c.releasedTo ≤ fileSize ∧
          c.releasedTo ≤ boundaryChunk c.inFlight c.nextDispatch * chunkSize)) := by
  unfold finish
  simp only
  split
  · exact ⟨_, _, rfl, rfl, rfl, Or.inl ⟨rfl, rfl⟩⟩
  · next hfar =>
      refine ⟨_, _, rfl, rfl, rfl, Or.inr ⟨rfl, ?_, Nat.min_le_right _ _, ?_⟩⟩
      · dsimp only
        omega
      · exact (Nat.min_le_left _ _).trans (Nat.min_le_left _ _)

end ReadCursor

/-! ## Ranges in order -/

/-- Each range starts where the one before it ended, the first at `a`, and none is empty or passes
    the end of the file. -/
def Contiguous (fileSize : Nat) : Nat → List (Nat × Nat) → Prop
  | _, [] => True
  | a, x :: rest => x.1 = a ∧ x.1 < x.2 ∧ x.2 ≤ fileSize ∧ Contiguous fileSize x.2 rest

/-- Where a list of ranges has got to. -/
def reached (a : Nat) (ranges : List (Nat × Nat)) : Nat :=
  ranges.foldl (fun _ x => x.2) a

theorem Contiguous.snoc {fileSize a b : Nat} {ranges : List (Nat × Nat)}
    (h : Contiguous fileSize a ranges) (hlt : reached a ranges < b) (hle : b ≤ fileSize) :
    Contiguous fileSize a (ranges ++ [(reached a ranges, b)]) := by
  induction ranges generalizing a with
  | nil => exact ⟨rfl, hlt, hle, trivial⟩
  | cons x rest ih =>
      obtain ⟨hstart, hne, hsize, hrest⟩ := h
      exact ⟨hstart, hne, hsize, ih hrest hlt⟩

/-- No range goes past the point reached. -/
theorem Contiguous.le_reached {fileSize a : Nat} {ranges : List (Nat × Nat)}
    (h : Contiguous fileSize a ranges) :
    a ≤ reached a ranges ∧ ∀ x ∈ ranges, x.2 ≤ reached a ranges := by
  induction ranges generalizing a with
  | nil => simp [reached]
  | cons x rest ih =>
      obtain ⟨hstart, hne, -, hrest⟩ := h
      obtain ⟨hfrom, hall⟩ := ih hrest
      have hreach : reached a (x :: rest) = reached x.2 rest := rfl
      rw [hreach]
      refine ⟨by omega, fun y hy => ?_⟩
      rcases List.mem_cons.1 hy with rfl | hy
      · exact hfrom
      · exact hall y hy

theorem reached_snoc (a : Nat) (ranges : List (Nat × Nat)) (x : Nat × Nat) :
    reached a (ranges ++ [x]) = x.2 := by
  simp [reached]

/-! ## The invariant -/

/-- The chunks of each file are queued in ascending order, with any gaps. -/
def Ascending (queue : List WorkItem) : Prop :=
  queue.Pairwise fun a b => a.fileIndex = b.fileIndex → a.chunkIndex < b.chunkIndex

/-- The cursor of file `f` is behind everything still to be read, and its ranges reach it. -/
structure ReadCursor.Behind (queue : List WorkItem) (f : Nat) (layout : ChunkLayout)
    (cursor : ReadCursor) (ranges : List (Nat × Nat)) : Prop where
  flight_lt : ∀ j ∈ cursor.inFlight, ∀ b ∈ queue, b.fileIndex = f → j < b.chunkIndex
  dispatched : ∀ b ∈ queue, b.fileIndex = f → cursor.nextDispatch ≤ b.chunkIndex
  flight : ∀ j ∈ cursor.inFlight, cursor.releasedTo ≤ layout.start j
  queued : ∀ b ∈ queue, b.fileIndex = f → cursor.releasedTo ≤ layout.start b.chunkIndex
  contiguous : Contiguous layout.fileSize 0 ranges
  reached_eq : reached 0 ranges = cursor.releasedTo

namespace ReadCursor.Behind

variable {queue : List WorkItem} {f : Nat} {layout : ChunkLayout} {cursor : ReadCursor}
  {ranges : List (Nat × Nat)}

theorem default (hempty : ranges = []) : ReadCursor.default.Behind queue f layout ranges where
  flight_lt := by simp [ReadCursor.default]
  dispatched := fun _ _ _ => Nat.zero_le _
  flight := by simp [ReadCursor.default]
  queued := fun _ _ _ => Nat.zero_le _
  contiguous := hempty ▸ trivial
  reached_eq := hempty ▸ rfl

/-- A chunk leaves the queue for another file. -/
theorem tail {item : WorkItem} (h : cursor.Behind (item :: queue) f layout ranges) :
    cursor.Behind queue f layout ranges where
  flight_lt := fun j hj b hb => h.flight_lt j hj b (List.mem_cons_of_mem item hb)
  dispatched := fun b hb => h.dispatched b (List.mem_cons_of_mem item hb)
  flight := h.flight
  queued := fun b hb => h.queued b (List.mem_cons_of_mem item hb)
  contiguous := h.contiguous
  reached_eq := h.reached_eq

/-- A chunk leaves the queue and is registered. -/
theorem begin {item : WorkItem} (h : cursor.Behind (item :: queue) f layout ranges)
    (hfile : item.fileIndex = f)
    (hrest : ∀ b ∈ queue, b.fileIndex = f → item.chunkIndex < b.chunkIndex) :
    (cursor.begin item.chunkIndex).Behind queue f layout ranges where
  flight_lt := fun j hj b hb hbf => by
    rcases Finset.mem_insert.1 hj with rfl | hj
    · exact hrest b hb hbf
    · exact h.flight_lt j hj b (List.mem_cons_of_mem item hb) hbf
  dispatched := fun b hb hbf => by
    refine Nat.max_le.2 ⟨h.dispatched b (List.mem_cons_of_mem item hb) hbf, ?_⟩
    exact (Nat.mod_le _ _).trans (hrest b hb hbf)
  flight := fun j hj => by
    rcases Finset.mem_insert.1 hj with rfl | hj
    · exact h.queued item List.mem_cons_self hfile
    · exact h.flight j hj
  queued := fun b hb hbf => h.queued b (List.mem_cons_of_mem item hb) hbf
  contiguous := h.contiguous
  reached_eq := h.reached_eq

/-- A chunk is done. -/
theorem finish (h : cursor.Behind queue f layout ranges) (index : Nat) {batch : Nat}
    (hbatch : 0 < batch) {c : ReadCursor} {out : Option (Nat × Nat)}
    (hfinish : cursor.finish index batch layout.chunkSize layout.fileSize = (c, out)) :
    c.inFlight = cursor.inFlight.erase index ∧
      c.Behind queue f layout (ranges ++ out.toList) := by
  obtain ⟨c', out', heq, hflight, hdispatch, hout⟩ :=
    cursor.finish_cases index batch layout.chunkSize layout.fileSize hbatch
  obtain ⟨rfl, rfl⟩ : c' = c ∧ out' = out := by
    rw [heq, Prod.mk.injEq] at hfinish
    exact hfinish
  have hmem {j : Nat} (hj : j ∈ c'.inFlight) : j ∈ cursor.inFlight := by
    rw [hflight] at hj
    exact Finset.mem_of_mem_erase hj
  refine ⟨hflight, ?_⟩
  have hlt (j : Nat) (hj : j ∈ c'.inFlight) := h.flight_lt j (hmem hj)
  rcases hout with ⟨rfl, hto⟩ | ⟨rfl, hgrow, hsize, hbound⟩
  · refine ⟨hlt, hdispatch ▸ h.dispatched, fun j hj => ?_, ?_, ?_, ?_⟩
    · rw [hto]
      exact h.flight j (hmem hj)
    · rw [hto]
      exact h.queued
    · simpa using h.contiguous
    · rw [hto, ← h.reached_eq]
      simp
  · -- the boundary is at or below every chunk in flight and every queued one
    have hbelow {j : Nat} (hj : boundaryChunk c'.inFlight c'.nextDispatch ≤ j) :
        c'.releasedTo ≤ layout.start j := hbound.trans (Nat.mul_le_mul_right _ hj)
    refine ⟨hlt, hdispatch ▸ h.dispatched, fun j hj => hbelow (boundaryChunk_le hj),
      fun b hb hbf => hbelow ?_, ?_, ?_⟩
    · refine boundaryChunk_le_of_later (hdispatch ▸ h.dispatched b hb hbf) fun j hj => ?_
      exact hlt j hj b hb hbf
    · rw [← h.reached_eq] at hgrow ⊢
      exact h.contiguous.snoc hgrow hsize
    · exact reached_snoc _ _ _

end ReadCursor.Behind

/-! ## What a step does -/

/-- A step of a worker: it pops a chunk, it has written the last part of one, or it makes no call. -/
theorem SendWorkerPc.step_calls {frameSize : UInt32} {s : Sender} {pc pc' : SendWorkerPc}
    {io : SendIo} {e : SendEffect} (h : pc.step frameSize s io = some (pc', e)) :
    (∃ item rest, pc = .popping ∧ s.queue = item :: rest ∧ e = .pop ∧
        pc'.reading = (chunkOf s.offered item).toOption.bind fun _ =>
          if frameSize = 0 then none else some item) ∨
      (∃ item n, pc = .header item n ∧ pc' = .counting item ∧ e = .quiet) ∨
      (e ≠ .pop ∧ pc.cursorCall s.queue pc' = .quiet ∧
        (pc'.reading = pc.reading ∨ pc'.reading = none)) := by
  cases pc with
  | popping =>
      cases io with
      | fail k => cases h
      | next =>
          rw [step] at h
          split at h
          · next hq =>
              simp only [Option.some.injEq, Prod.mk.injEq] at h
              obtain ⟨rfl, rfl⟩ := h
              exact Or.inr (Or.inr ⟨by simp, by rw [cursorCall.eq_def, hq], Or.inl rfl⟩)
          · next item rest hq =>
              refine Or.inl ⟨item, rest, rfl, hq, ?_⟩
              split at h
              · next hitem =>
                  simp only [Option.some.injEq, Prod.mk.injEq] at h
                  obtain ⟨rfl, rfl⟩ := h
                  exact ⟨rfl, by rw [hitem]; rfl⟩
              · next x hitem =>
                  rw [hitem]
                  split at h
                  · next hzero =>
                      simp only [Option.some.injEq, Prod.mk.injEq] at h
                      obtain ⟨rfl, rfl⟩ := h
                      exact ⟨rfl, by simp [Except.toOption, hzero, reading]⟩
                  · next hpos =>
                      simp only [Option.some.injEq, Prod.mk.injEq] at h
                      obtain ⟨rfl, rfl⟩ := h
                      exact ⟨rfl, by simp [Except.toOption, hpos, reading]⟩
  | header item n =>
      rw [step] at h
      split at h
      · cases h
      · split at h
        · simp only [Option.some.injEq, Prod.mk.injEq] at h
          obtain ⟨rfl, rfl⟩ := h
          exact Or.inr (Or.inl ⟨item, n, rfl, rfl, rfl⟩)
        · cases h
        · simp only [Option.some.injEq, Prod.mk.injEq] at h
          obtain ⟨rfl, rfl⟩ := h
          exact Or.inr (Or.inr ⟨by simp, rfl, Or.inl rfl⟩)
        · simp only [Option.some.injEq, Prod.mk.injEq] at h
          obtain ⟨rfl, rfl⟩ := h
          exact Or.inr (Or.inr ⟨by simp, rfl, Or.inr rfl⟩)
  | part item n =>
      rw [step] at h
      split at h
      · cases h
      · split at h
        · cases h
        · simp only [Option.some.injEq, Prod.mk.injEq] at h
          obtain ⟨rfl, rfl⟩ := h
          exact Or.inr (Or.inr ⟨by simp, rfl, Or.inl rfl⟩)
        · simp only [Option.some.injEq, Prod.mk.injEq] at h
          obtain ⟨rfl, rfl⟩ := h
          exact Or.inr (Or.inr ⟨by simp, rfl, Or.inr rfl⟩)
  | counting item =>
      cases io with
      | fail k => cases h
      | next =>
          rw [step] at h
          split at h
          · cases h
          · simp only [Option.some.injEq, Prod.mk.injEq] at h
            obtain ⟨rfl, rfl⟩ := h
            exact Or.inr (Or.inr ⟨by simp, rfl, Or.inl rfl⟩)
  | reporting done =>
      cases io with
      | fail k => cases h
      | next =>
          simp only [step, Option.some.injEq, Prod.mk.injEq] at h
          obtain ⟨rfl, rfl⟩ := h
          exact Or.inr (Or.inr ⟨by simp, rfl, Or.inl rfl⟩)
  | closing =>
      cases io with
      | next =>
          simp only [step, Option.some.injEq, Prod.mk.injEq] at h
          obtain ⟨rfl, rfl⟩ := h
          exact Or.inr (Or.inr ⟨by simp, rfl, Or.inl rfl⟩)
      | fail k =>
          simp only [step, Option.some.injEq, Prod.mk.injEq] at h
          obtain ⟨rfl, rfl⟩ := h
          exact Or.inr (Or.inr ⟨by simp, rfl, Or.inl rfl⟩)
  | draining =>
      simp only [step, Option.some.injEq, Prod.mk.injEq] at h
      obtain ⟨rfl, rfl⟩ := h
      exact Or.inr (Or.inr ⟨by simp, rfl, Or.inl rfl⟩)
  | ended result => cases h

/-- A step of a worker, on the whole. -/
theorem Sender.workerStep_some {frameSize : UInt32} {s s' : Sender} {i : Nat} {io : SendIo}
    (h : s.workerStep frameSize i io = some s') :
    ∃ w pc e, s.workers[i]? = some w ∧ w.pc.step frameSize s io = some (pc, e) ∧
      s' = { s.apply e with
        workers := s.workers.set i { stream := e.onStream w.stream, pc := pc } } := by
  unfold workerStep at h
  split at h
  · cases h
  · next w hw =>
      split at h
      · cases h
      · next pc e hpc =>
          rw [Option.some.injEq] at h
          exact ⟨w, pc, e, hw, hpc, h.symm⟩

namespace Releasing

/-- What worker `j` is reading. -/
def readingAt (r : Releasing) (j : Nat) : Option WorkItem :=
  r.sender.workers[j]?.bind fun w => w.pc.reading

/-- A step with its call: the queue, what the stepping worker reads, and the cursors. -/
inductive Move (r r' : Releasing) (i : Nat) : Prop where
  /-- No call; at most the worker gives its chunk up. -/
  | quiet (hqueue : r'.sender.queue = r.sender.queue)
      (hreading : r'.readingAt i = r.readingAt i ∨ r'.readingAt i = none)
      (hcursors : r'.cursors = r.cursors) (hreturned : r'.returned = r.returned)
  | begins (item : WorkItem) (rest : List WorkItem) (hqueue : r.sender.queue = item :: rest)
      (hrest : r'.sender.queue = rest)
      (hreading : r'.readingAt i = none ∨
        r'.readingAt i = some item ∧ item.fileIndex < r.sender.offered.length)
      (hcursors : r'.cursors = r.cursors.modify item.fileIndex (·.begin item.chunkIndex))
      (hreturned : r'.returned = r.returned)
  | finishes (item : WorkItem) (hqueue : r'.sender.queue = r.sender.queue)
      (hreading : r.readingAt i = some item) (hidle : r'.readingAt i = none)
      (hcall : ∃ s, r' = { r with sender := s }.onCall (.finish item))

theorem onCall_sender (r : Releasing) (call : CursorCall) : (r.onCall call).sender = r.sender := by
  cases call with
  | quiet => rfl
  | begin item => rfl
  | finish item =>
      rw [onCall]
      split
      · rfl
      · rfl

theorem step_move {frameSize : UInt32} {r r' : Releasing} {a : Nat × SendIo}
    (h : r.step frameSize a = some r') :
    r'.sender.offered = r.sender.offered ∧ (∀ j, j ≠ a.1 → r'.readingAt j = r.readingAt j) ∧
      Move r r' a.1 := by
  obtain ⟨i, io⟩ := a
  unfold step at h
  split at h
  · cases h
  next s' hs' =>
  obtain ⟨w, pc, e, hw, hpc, hset⟩ := Sender.workerStep_some hs'
  have hlt : i < r.sender.workers.length := (List.getElem?_eq_some_iff.1 hw).1
  have hworkers : s'.workers = r.sender.workers.set i
      { stream := e.onStream w.stream, pc := pc } := by rw [hset]
  have hplaces : places r.sender s' i = some (w.pc, pc) := by
    rw [places, show r.sender.workers[i]? = some w from hw, hworkers, List.getElem?_set_self hlt]
  rw [hplaces] at h
  simp only [Option.some.injEq] at h
  have hsender : r'.sender = s' := by rw [← h, onCall_sender]
  have hother (j : Nat) (hj : j ≠ i) : r'.readingAt j = r.readingAt j := by
    rw [readingAt, readingAt, hsender, hworkers, List.getElem?_set_ne hj.symm]
  have hbefore : r.readingAt i = w.pc.reading := by rw [readingAt, hw, Option.bind_some]
  have hafter : r'.readingAt i = pc.reading := by
    rw [readingAt, hsender, hworkers, List.getElem?_set_self hlt, Option.bind_some]
  have hqueue : s'.queue = (r.sender.apply e).queue := by rw [hset]
  refine ⟨by rw [hsender, hset]; rfl, hother, ?_⟩
  rcases SendWorkerPc.step_calls hpc with ⟨item, rest, hpop, hq, rfl, hread⟩ |
    ⟨item, n, hheader, hcounting, rfl⟩ | ⟨hne, hcall, hread⟩
  · have hcall : w.pc.cursorCall r.sender.queue pc = .begin item := by rw [hpop, hq]; rfl
    rw [hcall] at h
    refine .begins item rest hq ?_ ?_ (by rw [← h]; rfl) (by rw [← h]; rfl)
    · rw [hsender, hqueue, Sender.apply, hq]
      rfl
    · rw [hafter, hread]
      -- the chunk is read only if its file is one of the offered ones
      cases hfile : r.sender.offered[item.fileIndex]? with
      | none => left; rw [chunkOf, hfile]; rfl
      | some x =>
          have hin := (List.getElem?_eq_some_iff.1 hfile).1
          cases chunkOf r.sender.offered item with
          | error err => exact Or.inl rfl
          | ok y =>
              by_cases hzero : frameSize = 0
              · left; simp [Except.toOption, hzero]
              · right; exact ⟨by simp [Except.toOption, hzero], hin⟩
  · have hcall : w.pc.cursorCall r.sender.queue pc = .finish item := by rw [hheader, hcounting]; rfl
    rw [hcall] at h
    refine .finishes item (by rw [hsender, hqueue]; rfl) (by rw [hbefore, hheader]; rfl)
      (by rw [hafter, hcounting]; rfl) ⟨s', h.symm⟩
  · rw [hcall, onCall] at h
    have hsame : (r.sender.apply e).queue = r.sender.queue := by
      cases e with
      | pop => exact absurd rfl hne
      | _ => rfl
    refine .quiet (by rw [hsender, hqueue, hsame]) ?_ (by rw [← h]) (by rw [← h])
    rw [hafter, hbefore]
    exact hread

/-- The cursors are behind the workers and the queue. -/
structure Behind (offered : List (SourceFile × FileEntry)) (r : Releasing) : Prop where
  offered_eq : r.sender.offered = offered
  length_eq : r.cursors.length = offered.length
  ascending : Ascending r.sender.queue
  reading_lt : ∀ j item, r.readingAt j = some item → item.fileIndex < offered.length
  registered : ∀ j item (cursor : ReadCursor), r.readingAt j = some item →
    r.cursors[item.fileIndex]? = some cursor → item.chunkIndex ∈ cursor.inFlight
  apart : ∀ i j item, r.readingAt i = some item → r.readingAt j = some item → i = j
  files : ∀ f x (cursor : ReadCursor), offered[f]? = some x → r.cursors[f]? = some cursor →
    cursor.Behind r.sender.queue f x.1.layout (r.returnedFor f)

theorem Behind.start {offered : List (SourceFile × FileEntry)} {queue : List WorkItem}
    (workers : Nat) (hqueue : Ascending queue) :
    Behind offered (Releasing.start offered queue workers) := by
  have hidle (j : Nat) : (Releasing.start offered queue workers).readingAt j = none := by
    rw [readingAt, Releasing.start, List.getElem?_replicate]
    split
    · rfl
    · rfl
  refine ⟨rfl, by simp [Releasing.start], hqueue, ?_, ?_, ?_, ?_⟩
  · exact fun j item hj => absurd hj (by simp [hidle])
  · exact fun j item cursor hj => absurd hj (by simp [hidle])
  · exact fun i j item hi => absurd hi (by simp [hidle])
  · intro f x cursor hx hc
    obtain rfl : ReadCursor.default = cursor := by
      rw [Releasing.start, List.getElem?_map, hx, Option.map_some, Option.some.injEq] at hc
      exact hc
    exact .default rfl

/-- Whatever is read after a step was read before it by the same worker, or has been popped. -/
theorem Behind.cursor_exists {offered : List (SourceFile × FileEntry)} {r : Releasing}
    (h : Behind offered r) {f : Nat} (hf : f < offered.length) :
    ∃ cursor, r.cursors[f]? = some cursor :=
  ⟨_, List.getElem?_eq_getElem (h.length_eq ▸ hf)⟩

theorem Behind.quiet {offered : List (SourceFile × FileEntry)} {r r' : Releasing}
    (h : Behind offered r) (hoffered : r'.sender.offered = r.sender.offered)
    (hreading : ∀ j, r'.readingAt j = r.readingAt j ∨ r'.readingAt j = none)
    (hqueue : r'.sender.queue = r.sender.queue) (hcursors : r'.cursors = r.cursors)
    (hreturned : r'.returned = r.returned) : Behind offered r' := by
  have hread {j : Nat} {item : WorkItem} (hj : r'.readingAt j = some item) :
      r.readingAt j = some item := by
    rcases hreading j with heq | hnone
    · exact heq ▸ hj
    · rw [hnone] at hj
      cases hj
  refine ⟨hoffered.trans h.offered_eq, hcursors ▸ h.length_eq, hqueue ▸ h.ascending, ?_, ?_, ?_, ?_⟩
  · exact fun j item hj => h.reading_lt j item (hread hj)
  · exact fun j item cursor hj hc => h.registered j item cursor (hread hj) (hcursors ▸ hc)
  · exact fun i j item hi hj => h.apart i j item (hread hi) (hread hj)
  · intro f x cursor hx hc
    rw [hqueue, returnedFor, hreturned]
    exact h.files f x cursor hx (hcursors ▸ hc)

theorem Behind.begins {offered : List (SourceFile × FileEntry)} {r r' : Releasing} {i : Nat}
    (h : Behind offered r) (hoffered : r'.sender.offered = r.sender.offered)
    (hother : ∀ j, j ≠ i → r'.readingAt j = r.readingAt j) {item : WorkItem}
    {rest : List WorkItem} (hqueue : r.sender.queue = item :: rest) (hrest : r'.sender.queue = rest)
    (hreading : r'.readingAt i = none ∨
      r'.readingAt i = some item ∧ item.fileIndex < r.sender.offered.length)
    (hcursors : r'.cursors = r.cursors.modify item.fileIndex (·.begin item.chunkIndex))
    (hreturned : r'.returned = r.returned) : Behind offered r' := by
  have hread {j : Nat} {x : WorkItem} (hj : r'.readingAt j = some x) :
      r.readingAt j = some x ∧ j ≠ i ∨ j = i ∧ x = item ∧ item.fileIndex < offered.length := by
    by_cases hji : j = i
    · subst hji
      rcases hreading with hnone | ⟨hsome, hlt⟩
      · rw [hnone] at hj
        cases hj
      · rw [hsome, Option.some.injEq] at hj
        exact Or.inr ⟨rfl, hj.symm, h.offered_eq ▸ hlt⟩
    · exact Or.inl ⟨hother j hji ▸ hj, hji⟩
  -- the popped chunk is registered nowhere yet: registered chunks come before the queued ones
  have hnew {j : Nat} (hj : r.readingAt j = some item) : False := by
    obtain ⟨cursor, hc⟩ := h.cursor_exists (h.reading_lt j item hj)
    obtain ⟨x, hx⟩ : ∃ x, offered[item.fileIndex]? = some x :=
      ⟨_, List.getElem?_eq_getElem (h.reading_lt j item hj)⟩
    have hmem := h.registered j item cursor hj hc
    have hlt := (h.files _ x cursor hx hc).flight_lt _ hmem item
      (by rw [hqueue]; exact List.mem_cons_self) rfl
    omega
  have hasc := hqueue ▸ h.ascending
  refine ⟨hoffered.trans h.offered_eq, ?_, hrest ▸ (List.pairwise_cons.1 hasc).2, ?_, ?_, ?_, ?_⟩
  · rw [hcursors, List.length_modify]
    exact h.length_eq
  · intro j x hj
    rcases hread hj with ⟨hj, -⟩ | ⟨-, rfl, hlt⟩
    · exact h.reading_lt j x hj
    · exact hlt
  · intro j x cursor hj hc
    rw [hcursors, List.getElem?_modify] at hc
    obtain ⟨c₀, hc₀, rfl⟩ := Option.map_eq_some_iff.1 hc
    rcases hread hj with ⟨hj, -⟩ | ⟨-, rfl, -⟩
    · have hmem := h.registered j x c₀ hj hc₀
      split
      · exact Finset.mem_insert_of_mem hmem
      · exact hmem
    · rw [if_pos rfl]
      exact Finset.mem_insert_self _ _
  · intro a b x ha hb
    rcases hread ha with ⟨ha, -⟩ | ⟨rfl, rfl, -⟩
    · rcases hread hb with ⟨hb, -⟩ | ⟨rfl, rfl, -⟩
      · exact h.apart a b x ha hb
      · exact (hnew ha).elim
    · rcases hread hb with ⟨hb, -⟩ | ⟨rfl, -, -⟩
      · exact (hnew hb).elim
      · rfl
  · intro f x cursor hx hc
    rw [hcursors, List.getElem?_modify] at hc
    obtain ⟨c₀, hc₀, rfl⟩ := Option.map_eq_some_iff.1 hc
    have hbehind := h.files f x c₀ hx hc₀
    rw [hqueue] at hbehind
    rw [hrest, returnedFor, hreturned]
    split
    · next hfile =>
        refine hbehind.begin hfile fun b hb hbf => ?_
        exact (List.pairwise_cons.1 hasc).1 b hb (hfile.trans hbf.symm)
    · exact hbehind.tail

theorem Behind.finishes {offered : List (SourceFile × FileEntry)} {r r' : Releasing} {i : Nat}
    (h : Behind offered r) (hoffered : r'.sender.offered = r.sender.offered)
    (hother : ∀ j, j ≠ i → r'.readingAt j = r.readingAt j) {item : WorkItem}
    (hqueue : r'.sender.queue = r.sender.queue) (hreading : r.readingAt i = some item)
    (hidle : r'.readingAt i = none) (hcall : ∃ s, r' = { r with sender := s }.onCall (.finish item)) :
    Behind offered r' := by
  have hread {j : Nat} {x : WorkItem} (hj : r'.readingAt j = some x) :
      r.readingAt j = some x ∧ j ≠ i := by
    have hji : j ≠ i := by
      rintro rfl
      rw [hidle] at hj
      cases hj
    exact ⟨hother j hji ▸ hj, hji⟩
  have hlt := h.reading_lt i item hreading
  obtain ⟨c₀, hc₀⟩ := h.cursor_exists hlt
  obtain ⟨x₀, hx₀⟩ : ∃ x, offered[item.fileIndex]? = some x := ⟨_, List.getElem?_eq_getElem hlt⟩
  have hbehind := h.files _ x₀ c₀ hx₀ hc₀
  have hbatch : 0 < max RELEASE_BATCH_BYTES x₀.1.layout.chunkSize :=
    lt_max_of_lt_left (by decide)
  obtain ⟨c₁, out, hfinish⟩ : ∃ c₁ out, c₀.finish item.chunkIndex
      (max RELEASE_BATCH_BYTES x₀.1.layout.chunkSize) x₀.1.layout.chunkSize x₀.1.layout.fileSize
        = (c₁, out) := ⟨_, _, rfl⟩
  obtain ⟨hflight, hdone⟩ := hbehind.finish item.chunkIndex hbatch hfinish
  obtain ⟨hcursors, hreturned⟩ : r'.cursors = r.cursors.set item.fileIndex c₁ ∧
      r'.returned = r.returned ++ out.toList.map fun x => ⟨item.fileIndex, x.1, x.2⟩ := by
    obtain ⟨s, rfl⟩ := hcall
    have hs : s.offered[item.fileIndex]? = some x₀ := by
      rw [onCall_sender] at hoffered
      rw [hoffered, h.offered_eq, hx₀]
    rw [onCall]
    simp only [hs, hc₀, finishItem, hfinish, and_self]
  refine ⟨hoffered.trans h.offered_eq, ?_, hqueue ▸ h.ascending, ?_, ?_, ?_, ?_⟩
  · rw [hcursors, List.length_set]
    exact h.length_eq
  · exact fun j x hj => h.reading_lt j x (hread hj).1
  · intro j x cursor hj hc
    obtain ⟨hj, hji⟩ := hread hj
    rw [hcursors, List.getElem?_set] at hc
    split at hc
    · next hfile =>
        obtain ⟨-, rfl⟩ : _ ∧ c₁ = cursor := by simpa using hc
        rw [hflight, Finset.mem_erase]
        refine ⟨fun heq => hji ?_, h.registered j x c₀ hj (hfile ▸ hc₀)⟩
        obtain rfl : item = x := by
          cases item
          cases x
          simp_all
        exact h.apart j i item hj hreading
    · exact h.registered j x cursor hj hc
  · exact fun a b x ha hb => h.apart a b x (hread ha).1 (hread hb).1
  · intro f x cursor hx hc
    have hranges : r'.returnedFor f
        = r.returnedFor f ++ if item.fileIndex = f then out.toList else [] := by
      rw [returnedFor, hreturned, List.filter_append, List.map_append, returnedFor]
      congr 1
      cases out with
      | none => simp
      | some y => by_cases hfile : item.fileIndex = f <;> simp [hfile]
    rw [hcursors, List.getElem?_set] at hc
    rw [hranges, hqueue]
    split at hc
    · next hfile =>
        obtain ⟨-, rfl⟩ : _ ∧ c₁ = cursor := by simpa using hc
        subst hfile
        obtain rfl := Option.some.inj (hx₀.symm.trans hx)
        rw [if_pos rfl]
        exact hdone
    · next hfile =>
        rw [if_neg hfile, List.append_nil]
        exact h.files f x cursor hx hc

theorem Behind.step {frameSize : UInt32} {offered : List (SourceFile × FileEntry)}
    {r r' : Releasing} {a : Nat × SendIo} (h : Behind offered r)
    (hstep : r.step frameSize a = some r') : Behind offered r' := by
  obtain ⟨hoffered, hother, hmove⟩ := step_move hstep
  cases hmove with
  | quiet hqueue hreading hcursors hreturned =>
      refine h.quiet hoffered (fun j => ?_) hqueue hcursors hreturned
      by_cases hj : j = a.1
      · exact hj ▸ hreading
      · exact Or.inl (hother j hj)
  | begins item rest hqueue hrest hreading hcursors hreturned =>
      exact h.begins hoffered hother hqueue hrest hreading hcursors hreturned
  | finishes item hqueue hreading hidle hcall =>
      exact h.finishes hoffered hother hqueue hreading hidle hcall

end Releasing

theorem ChunkLayout.le_of_range {l : ChunkLayout} {index offset len : Nat}
    (h : l.range index = .ok (offset, len)) : offset = l.start index := by
  obtain ⟨-, heq⟩ := (l.range_ok_iff index (offset, len)).1 h
  exact congrArg Prod.fst heq

/-- A released range and the `len` bytes at `offset` have no byte in common. -/
def NoCommonByte (range : Nat × Nat) (offset len : Nat) : Prop :=
  ∀ b, range.1 ≤ b → b < range.2 → ¬ (offset ≤ b ∧ b < offset + len)

/-- **Released pages are never in use.** In every state of every run of the workers over an ascending
    queue, the ranges returned so far for a file follow one another from 0 without a gap, end within
    the file, and meet no byte of a chunk that is being read or still queued; and what
    `release_range` advises is whole pages inside its range. A range stays in the state once it is
    returned, so this is about every chunk in flight then and every chunk popped later. -/
theorem released_pages_unused {frameSize : UInt32} {offered : List (SourceFile × FileEntry)}
    {queue : List WorkItem} {workers : Nat} (hqueue : Ascending queue) {acts : List (Nat × SendIo)}
    {r : Releasing} (h : Releasing.runs frameSize (.start offered queue workers) acts = some r) :
    (∀ f x, offered[f]? = some x →
      Contiguous x.1.layout.fileSize 0 (r.returnedFor f) ∧
      ∀ range ∈ r.returnedFor f, ∀ item : WorkItem, item.fileIndex = f →
        item ∈ r.sender.queue ∨ (∃ j, r.readingAt j = some item) →
        ∀ offset len, x.1.layout.range item.chunkIndex = .ok (offset, len) →
          NoCommonByte range offset len) ∧
    ∀ (src : MappedFile) (start stop offset len : Nat),
      start ≤ src.map.length → stop ≤ src.map.length →
      src.releaseRange start stop = some (offset, len) →
      pageSize src.raw ∣ offset ∧ pageSize src.raw ∣ len ∧ 0 < len ∧
        start ≤ offset ∧ offset + len ≤ stop := by
  have hbehind : Releasing.Behind offered r :=
    Run.invariant (fun _ _ _ hs hstep => hs.step hstep) (.start workers hqueue) h
  constructor
  · intro f x hx
    obtain ⟨cursor, hc⟩ := hbehind.cursor_exists (List.getElem?_eq_some_iff.1 hx).1
    have hfile := hbehind.files f x cursor hx hc
    refine ⟨hfile.contiguous, fun range hrange item hf hitem offset len hlen => ?_⟩
    have hreached : range.2 ≤ cursor.releasedTo :=
      hfile.reached_eq ▸ (hfile.contiguous.le_reached).2 range hrange
    have hbelow : cursor.releasedTo ≤ x.1.layout.start item.chunkIndex := by
      rcases hitem with hqueued | ⟨j, hj⟩
      · exact hfile.queued item hqueued hf
      · exact hfile.flight _ (hbehind.registered j item cursor hj (hf ▸ hc))
    obtain rfl := ChunkLayout.le_of_range hlen
    rintro b - hb ⟨hoffset, -⟩
    omega
  · exact fun src start stop offset len hstart hstop => src.releaseRange_inside hstart hstop

/-- The queue that `run` builds is ascending. -/
theorem QueueFor.ascending {offered : List (SourceFile × FileEntry)}
    {held : Nat → Option ChunkBitmap} {queue : List WorkItem} {bytes : UInt64}
    (h : QueueFor offered held queue bytes) : Ascending queue := by
  refine List.Pairwise.imp ?_ h.ordered
  intro a b hab hfile
  unfold WorkItem.Before at hab
  omega

/-- A file of 96 MiB of zeros, in three chunks of 32 MiB. -/
def threeChunkSource : SourceFile where
  map := List.replicate (3 * 2 ^ 25) 0
  layout :=
    { fileSize := 3 * 2 ^ 25
      chunkSize := 2 ^ 25
      count := 3
      fileSize_lt := by decide
      min_le := by decide
      le_max := by decide
      powerOfTwo := by decide
      count_eq := by decide }
  size_eq := by rw [List.length_replicate]

def threeChunkFile : SourceFile × FileEntry :=
  (threeChunkSource, { oneByteEntry 0 "a" rootA digestA with sizeBytes := 3 * 2 ^ 25 })

theorem chunkOf_threeChunkFile {i : Nat} (hi : i < 3) :
    ∃ payload, chunkOf [threeChunkFile] ⟨0, i⟩ = .ok (i * 2 ^ 25, payload) ∧
      payload.length = 2 ^ 25 := by
  have hrange : threeChunkSource.layout.range i = .ok (i * 2 ^ 25, 2 ^ 25) := by
    match i, hi with
    | 0, _ => rfl
    | 1, _ => rfl
    | 2, _ => rfl
  refine ⟨Bytes.slice threeChunkSource.map (i * 2 ^ 25) (2 ^ 25), ?_, Bytes.length_slice_of_le ?_⟩
  · simp only [chunkOf, threeChunkFile, List.getElem?_cons_zero, SourceFile.chunk, hrange]
    rfl
  · rw [threeChunkSource, List.length_replicate]
    omega

/-- A payload that fits in a part is sent in one. -/
theorem partOf_whole {frameSize : Nat} {payload : List UInt8} (hpos : 0 < payload.length)
    (hle : payload.length ≤ frameSize) :
    partOf frameSize payload 0 = some payload ∧ partOf frameSize payload 1 = none := by
  constructor
  · rw [partOf, if_pos (by omega), Nat.zero_mul, Bytes.slice, List.drop_zero,
      List.take_of_length_le hle]
  · rw [partOf, if_neg (by omega)]

/-- The first worker pops a chunk, the second worker the next one; then the first worker writes its
    chunk in one part and calls `finish`. -/
def firstChunkFinished : List (Nat × SendIo) :=
  [(0, .next), (1, .next), (0, .next), (0, .next), (0, .next)]

/-- What `finish` returns there, with the second chunk in flight and the rest queued. -/
theorem Releasing.runs_firstChunkFinished {frameSize : UInt32} (hframe : frameSize ≠ 0)
    {x : SourceFile × FileEntry} {offset offset' : Nat} {payload payload' : List UInt8}
    {rest : List WorkItem} (hfirst : chunkOf [x] ⟨0, 0⟩ = .ok (offset, payload))
    (hsecond : chunkOf [x] ⟨0, 1⟩ = .ok (offset', payload'))
    (hpart : partOf frameSize.toNat payload 0 = some payload)
    (hwhole : partOf frameSize.toNat payload 1 = none) :
    ∃ r : Releasing, (Releasing.start [x] (⟨0, 0⟩ :: ⟨0, 1⟩ :: rest) 2).runs frameSize
        firstChunkFinished = some r ∧
      r.returned = ((((ReadCursor.default.begin 0).begin 1).finish 0
        (max RELEASE_BATCH_BYTES x.1.layout.chunkSize) x.1.layout.chunkSize
        x.1.layout.fileSize).2.toList.map fun y => ⟨0, y.1, y.2⟩) ∧
      r.readingAt 1 = some ⟨0, 1⟩ ∧ r.sender.queue = rest := by
  obtain ⟨src, entry⟩ := x
  simp only [Releasing.runs, firstChunkFinished, Run.runs_cons, Run.runs_nil, Releasing.start,
    Releasing.step, Sender.workerStep, SendWorkerPc.step, hfirst, hsecond, hpart, hwhole,
    if_neg hframe, Sender.apply, Sender.init, Releasing.places, SendWorkerPc.cursorCall,
    Releasing.onCall, SendEffect.onStream, SendWorker.fresh, List.replicate,
    List.getElem?_cons_zero, List.getElem?_cons_succ, List.set_cons_zero, List.set_cons_succ,
    Option.bind_some, List.tail_cons, List.map_cons, List.map_nil, List.modify_cons]
  exact ⟨_, rfl, rfl, rfl, rfl⟩

/-- The first 32 MiB are returned while the second worker reads the next chunk and the last one is
    queued; neither has a byte there. -/
theorem released_pages_unused_threeChunks :
    ∃ r : Releasing, r.returnedFor 0 = [(0, 2 ^ 25)] ∧ r.readingAt 1 = some ⟨0, 1⟩ ∧
      r.sender.queue = [⟨0, 2⟩] ∧ Contiguous (3 * 2 ^ 25) 0 (r.returnedFor 0) ∧
      ∀ range ∈ r.returnedFor 0, ∀ item : WorkItem, item.fileIndex = 0 →
        item ∈ r.sender.queue ∨ (∃ j, r.readingAt j = some item) →
        ∀ offset len, threeChunkSource.layout.range item.chunkIndex = .ok (offset, len) →
          NoCommonByte range offset len := by
  obtain ⟨payload, hfirst, hlength⟩ := chunkOf_threeChunkFile (i := 0) (by decide)
  obtain ⟨payload', hsecond, -⟩ := chunkOf_threeChunkFile (i := 1) (by decide)
  have hfits : payload.length ≤ (33554432 : UInt32).toNat := Nat.le_of_eq hlength
  obtain ⟨hpart, hwhole⟩ := partOf_whole (by omega) hfits
  obtain ⟨r, hr, hreturned, hreading, hqueue⟩ :=
    Releasing.runs_firstChunkFinished (by decide) hfirst hsecond hpart hwhole
  have hascending : Ascending [⟨0, 0⟩, ⟨0, 1⟩, ⟨0, 2⟩] := by
    unfold Ascending
    decide
  refine ⟨r, ?_, hreading, hqueue, (released_pages_unused hascending hr).1 0 _ rfl⟩
  rw [Releasing.returnedFor, hreturned]
  decide +kernel

end AetherLink
