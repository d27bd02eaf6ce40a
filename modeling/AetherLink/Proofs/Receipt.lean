import AetherLink.Lib.Tally
import AetherLink.Proofs.Lane
import AetherLink.Proofs.Queue
import AetherLink.Proofs.Sidecar

set_option autoImplicit false

/-! # What an honest session has received

The receiving side of an honest transfer, with a `Lane` for each stream. What the bitmaps say and
what the disk has been written is read off the lanes: a bit is set if it was set at the start or its
chunk is marked in some lane (`Session.Receives.bits`), and a byte has been written as often as the
lanes count (`Session.Receives.written`). The counts are sums over the lanes, so a step of one
stream exchanges one summand. -/

namespace AetherLink

open Bytes Storage

/-! ## Counts over the lanes -/

/-- How often byte `j` of the item's chunk is written. -/
def Lane.writes (l : Lane) (item : WorkItem) (j : Nat) : Nat :=
  l.marked.count item + if l.todo.head? = some item ∧ j < l.wrote then 1 else 0

namespace Lanes

/-- How often the chunk is marked. -/
def marks (lanes : List Lane) (item : WorkItem) : Nat :=
  (lanes.map fun l => l.marked.count item).sum

/-- How often byte `j` of the chunk is written. -/
def writes (lanes : List Lane) (item : WorkItem) (j : Nat) : Nat :=
  (lanes.map fun l => l.writes item j).sum

/-- How often the chunk is taken up. -/
def takes (lanes : List Lane) (item : WorkItem) : Nat :=
  (lanes.map fun l => l.items.count item).sum

end Lanes

theorem Lane.writes_le (l : Lane) (item : WorkItem) (j : Nat) :
    l.writes item j ≤ l.items.count item := by
  rw [writes, items, List.count_append]
  split
  · next h =>
      have hmem : item ∈ l.todo := List.mem_of_head? h.1
      have := List.count_pos_iff.2 hmem
      omega
  · omega

/-- Nothing is written more often than it is taken up. -/
theorem Lanes.writes_le_takes (lanes : List Lane) (item : WorkItem) (j : Nat) :
    writes lanes item j ≤ takes lanes item :=
  List.sum_le_sum fun l _ => l.writes_le item j

/-- Once nothing is left to do, what is taken up is marked and written. -/
theorem Lanes.of_done {lanes : List Lane} (h : ∀ l ∈ lanes, l.todo = []) (item : WorkItem) :
    marks lanes item = takes lanes item ∧ ∀ j, writes lanes item j = takes lanes item := by
  refine ⟨?_, fun j => ?_⟩
  · unfold marks takes
    rw [List.map_congr_left fun l hl => ?_]
    rw [Lane.items, h l hl, List.append_nil]
  · unfold writes takes
    rw [List.map_congr_left fun l hl => ?_]
    rw [Lane.writes, Lane.items, h l hl, List.append_nil]
    simp

section Set

variable {lanes : List Lane} {i : Nat} {l : Lane} (h : lanes[i]? = some l) (l' : Lane)
include h

theorem Lanes.marks_set (item : WorkItem) :
    marks (lanes.set i l') item + l.marked.count item
      = marks lanes item + l'.marked.count item :=
  List.sum_map_set h l' _

theorem Lanes.writes_set (item : WorkItem) (j : Nat) :
    writes (lanes.set i l') item j + l.writes item j = writes lanes item j + l'.writes item j :=
  List.sum_map_set h l' _

theorem Lanes.takes_set (item : WorkItem) :
    takes (lanes.set i l') item + l.items.count item = takes lanes item + l'.items.count item :=
  List.sum_map_set h l' _

end Set

theorem WorkItem.mk_eq_iff (item : WorkItem) (k : Nat) :
    (⟨item.fileIndex, k⟩ : WorkItem) = item ↔ k = item.chunkIndex := by
  cases item
  simp

/-- A piece of the chunk in hand counts for the bytes of the piece. -/
theorem Lane.writes_piece (marked todo : List WorkItem) (item : WorkItem) (done m : Nat)
    (item' : WorkItem) (j : Nat) :
    (⟨marked, item :: todo, done + m⟩ : Lane).writes item' j
      = (⟨marked, item :: todo, done⟩ : Lane).writes item' j +
        if item' = item ∧ done ≤ j ∧ j < done + m then 1 else 0 := by
  simp only [writes, List.head?_cons, Option.some.injEq]
  by_cases hitem : item = item'
  · subst hitem
    simp only [true_and]
    split <;> split <;> split <;> omega
  · have hne : ¬ item' = item := fun heq => hitem heq.symm
    simp [hitem, hne]

/-- A chunk that is marked was written from end to end. -/
theorem Lane.writes_mark {marked todo : List WorkItem} {item : WorkItem} {len : Nat}
    {item' : WorkItem} {j : Nat} (hj : item' = item → j < len) :
    (⟨marked ++ [item], todo, 0⟩ : Lane).writes item' j
      = (⟨marked, item :: todo, len⟩ : Lane).writes item' j := by
  simp only [writes, List.head?_cons, Option.some.injEq, List.count_append, List.count_singleton,
    Nat.not_lt_zero, and_false, if_false, Nat.add_zero]
  by_cases hitem : item = item'
  · subst hitem
    simp [hj rfl]
  · simp [hitem]

theorem Lane.marks_mark (marked : List WorkItem) (item item' : WorkItem) :
    (marked ++ [item]).count item' = marked.count item' + if item' = item then 1 else 0 := by
  rw [List.count_append, List.count_singleton]
  congr 1
  by_cases hitem : item = item'
  · simp [hitem]
  · have hne : ¬ item' = item := fun heq => hitem heq.symm
    simp [hitem, hne]

/-- Where a piece of a chunk goes in its file. -/
theorem writeCount_piece {l : ChunkLayout} {i done m k j : Nat} {payload : List UInt8}
    (hlen : payload.length = l.len i) (hfits : done + m ≤ payload.length) (hj : j < l.len k) :
    writeCount [.pwrite (l.start i + done) (slice payload done m)] (l.start k + j)
      = if k = i ∧ done ≤ j ∧ j < done + m then 1 else 0 := by
  rw [writeCount_pwrite, length_slice_of_le hfits]
  by_cases hki : k = i
  · subst hki
    simp only [true_and]
    split <;> split <;> omega
  · rw [if_neg (show ¬ (k = i ∧ done ≤ j ∧ j < done + m) from fun h => hki h.1), if_neg]
    rcases Nat.lt_or_gt_of_ne hki with hlt | hlt
    · have := l.disjoint hlt
      omega
    · have := l.disjoint hlt
      omega

/-! ## The receiving side -/

/-- `run` is not on its error path and has found no file incomplete. -/
def MainPc.Completing : MainPc → Prop
  | .failing _ _ => False
  | .saving _ _ _ _ => False
  | .shelving _ _ => False
  | .aborting _ => False
  | .returned (.error _) => False
  | _ => True

/-- How many streams `run` has still to accept. -/
def MainPc.left : MainPc → Nat
  | .spawning left => left
  | _ => 0

/-- The files `run` has still to go over, or is at. -/
def MainPc.todo : MainPc → List UInt64
  | .checking todo => todo
  | .syncing id todo => id :: todo
  | .dropping id todo => id :: todo
  | .droppingTmp id todo => id :: todo
  | _ => []

/-- What is still to go over is in the file map, and `Ok` is returned over a `Complete`. -/
structure Session.Sweeping (s : Session) : Prop where
  mapped : ∀ id ∈ s.main.todo, ∃ st, s.env.files.lookup id = some st
  told : ∀ m, s.main = .returned (.ok m) → .complete m ∈ s.env.sent

/-- A turn of `run` goes over no file but those there are. -/
theorem MainMove.todo_subset {p : Params} {env : Env} {pc pc' : MainPc} {e : Effect}
    (h : MainMove p env pc pc' e) : pc'.todo ⊆ pc.todo := by
  cases h with
  | complete todo hs hc => exact List.Subset.refl _
  | syncs todo hs => exact List.Subset.refl _
  | drops todo hs he => exact List.Subset.refl _
  | dropsTmp todo hs he => exact List.subset_cons_self _ _
  | _ => exact List.nil_subset _

theorem MainMove.told {p : Params} {env : Env} {pc : MainPc} {m : UInt64} {e : Effect}
    (h : MainMove p env pc (.returned (.ok m)) e) : .complete m ∈ (env.apply e).sent := by
  cases h with
  | completes => exact List.mem_append_right _ (List.mem_singleton.2 rfl)

theorem Session.Sweeping.step {p : Params} {s s' : Session} {e : Effect} (h : SessionMove p s s' e)
    (hs : s.Sweeping) : s'.Sweeping := by
  have hmapped : ∀ id, (∃ st, s.env.files.lookup id = some st) →
      ∃ st, (s.env.apply e).files.lookup id = some st := by
    rintro id ⟨st, hst⟩
    exact ⟨_, Env.lookup_apply_of hst⟩
  cases h with
  | arrives hw hopen inbox closed => exact ⟨hs.mapped, hs.told⟩
  | worker hw hmove =>
      exact ⟨fun id hid => hmapped id (hs.mapped id hid),
        fun m hm => (s.env.sent_prefix _).subset (hs.told m hm)⟩
  | accepts hmain => exact ⟨fun id hid => absurd hid List.not_mem_nil, by simp⟩
  | refuses hmain error => exact ⟨fun id hid => absurd hid List.not_mem_nil, by simp⟩
  | joins hmain hended horder hnext =>
      rcases hnext with ⟨error, -, rfl⟩ | ⟨-, rfl⟩
      · exact ⟨fun id hid => absurd hid List.not_mem_nil, by simp⟩
      · refine ⟨fun id hid => ?_, by simp⟩
        exact Option.isSome_iff_exists.1
          (AList.lookup_isSome.2 (AList.mem_keys.2 (horder.mem_iff.1 hid)))
  | main hmove =>
      refine ⟨fun id hid => hmapped id (hs.mapped id (hmove.todo_subset hid)), fun m hm => ?_⟩
      simp only at hm
      subst hm
      exact hmove.told

/-- Only a worker sets a bit. -/
theorem Session.not_setBit_of_stepEffect {p : Params} {s s' : Session} {a : SessionAct} {e : Effect}
    (ha : ∀ i io, a ≠ .worker i io) (h : s.stepEffect p a = some (s', e)) (id : UInt64) (i : Nat) :
    e ≠ .setBit id i := by
  cases stepEffect_cases h with
  | worker hw hstep => exact absurd rfl (ha _ _)
  | main hstep => exact (mainStep_moves hstep).not_setBit id i
  | deliver hw hopen => simp
  | close hw hopen => simp
  | accept hmain => simp
  | refuse hmain => simp
  | join hmain hended horder hnext => simp

/-- While no call fails and the files it finds are complete, `run` completes. -/
theorem Session.mainStep_completing {p : Params} {env : Env} {pc pc' : MainPc} {io : IoAct}
    {e : Effect} (h : mainStep p env pc io = some (pc', e)) (hio : io ≠ .fail) (hpc : pc.Completing)
    (hcomplete : ∀ id todo st, pc = .checking (id :: todo) → env.files.lookup id = some st →
      st.bitmap.isComplete = true) : pc'.Completing ∧ pc'.left = pc.left := by
  unfold mainStep at h
  split at h
  · cases h
    exact ⟨trivial, rfl⟩
  · exact hpc.elim
  · exact hpc.elim
  · exact hpc.elim
  · cases h
    exact ⟨trivial, rfl⟩
  · split at h
    · cases h
    · next st hst =>
        rw [if_pos (hcomplete _ _ st rfl hst)] at h
        cases h
        exact ⟨trivial, rfl⟩
  · exact hpc.elim
  · exact hpc.elim
  · split at h
    · cases h
    · split at h
      · cases h
        exact ⟨trivial, rfl⟩
      · exact absurd rfl hio
      · cases h
  · split at h
    · cases h
    · split at h
      · cases h
        exact ⟨trivial, rfl⟩
      · exact absurd rfl hio
      · cases h
  · split at h
    · cases h
    · split at h
      · cases h
        exact ⟨trivial, rfl⟩
      · exact absurd rfl hio
      · cases h
  · cases h
    exact ⟨trivial, rfl⟩
  · exact absurd rfl hio
  · cases h

/-- What holds of the receiving side of an honest transfer of these sources that began as `s₀`, over
    `n` streams and these bitmaps. -/
structure Session.Receives (blake3 : Blake3) (n : Nat) (offered : List (SourceFile × FileEntry))
    (bitmaps : List ChunkBitmap) (s s₀ : Session) (lanes : List Lane) : Prop where
  tidy : s.Tidy blake3
  sized : s.env.files.Sized
  back : ∀ id st, s.env.files.lookup id = some st →
    ∃ st₀, s₀.env.files.lookup id = some st₀ ∧ st₀.SameFile st
  same : SameStates s₀.env.files s.env.files
  bits : ∀ (i : Nat) b st, bitmaps[i]? = some b → s.env.files.lookup (UInt64.ofNat i) = some st →
    ∀ k, st.bitmap.has k = true ↔ b.has k = true ∨ 0 < Lanes.marks lanes ⟨i, k⟩
  written : ∀ (i : Nat) x st, offered[i]? = some x →
    s.env.files.lookup (UInt64.ofNat i) = some st →
    ∃ ops, s₀.env.disk.Since s.env.disk st.sink.ino ops ∧ (∀ op ∈ ops, op.Copies x.1.map) ∧
      ∀ k j, k < st.layout.count → j < st.layout.len k →
        writeCount ops (st.layout.start k + j) = Lanes.writes lanes ⟨i, k⟩ j
  main : s.main.Completing
  streams : s.workers.length + s.main.left = n
  sweeping : s.Sweeping

namespace Session.Receives

variable {p : Params} {n : Nat} {offered : List (SourceFile × FileEntry)}
  {bitmaps : List ChunkBitmap} {s₀ s s' : Session} {lanes lanes' : List Lane} {a : SessionAct}
  {e : Effect}

/-- It is the counts of the lanes that matter. -/
theorem recount {blake3 : Blake3} (h : s.Receives blake3 n offered bitmaps s₀ lanes)
    (hmarks : ∀ item, Lanes.marks lanes' item = Lanes.marks lanes item)
    (hwrites : ∀ item j, Lanes.writes lanes' item j = Lanes.writes lanes item j) :
    s.Receives blake3 n offered bitmaps s₀ lanes' where
  tidy := h.tidy
  sized := h.sized
  back := h.back
  same := h.same
  bits := by
    intro i b st hb hst k
    rw [hmarks]
    exact h.bits i b st hb hst k
  written := by
    intro i x st hx hst
    obtain ⟨ops, hsince, hcopies, hops⟩ := h.written i x st hx hst
    refine ⟨ops, hsince, hcopies, fun k j hk hj => ?_⟩
    rw [hwrites]
    exact hops k j hk hj
  main := h.main
  streams := h.streams
  sweeping := h.sweeping

/-- A step of the session, by what it does to the bitmaps and the sinks. -/
theorem step (h : s.Receives p.blake3 n offered bitmaps s₀ lanes)
    (heff : s.stepEffect p a = some (s', e))
    (hbits : ∀ (i : Nat) b st, bitmaps[i]? = some b → s.env.files.lookup (UInt64.ofNat i) = some st →
      ∀ k, (e.onFile (UInt64.ofNat i) st).bitmap.has k = true ↔
        st.bitmap.has k = true ∨ Lanes.marks lanes ⟨i, k⟩ < Lanes.marks lanes' ⟨i, k⟩)
    (hmarks : ∀ item, Lanes.marks lanes item ≤ Lanes.marks lanes' item)
    (hwrites : ∀ (i : Nat) x st, offered[i]? = some x →
      s.env.files.lookup (UInt64.ofNat i) = some st →
      (∀ op ∈ e.ops s.env.disk st.sink.ino, op.Copies x.1.map) ∧
      ∀ k j, k < st.layout.count → j < st.layout.len k →
        Lanes.writes lanes' ⟨i, k⟩ j = Lanes.writes lanes ⟨i, k⟩ j +
          writeCount (e.ops s.env.disk st.sink.ino) (st.layout.start k + j))
    (hmain : s'.main.Completing) (hstreams : s'.workers.length + s'.main.left = n) :
    s'.Receives p.blake3 n offered bitmaps s₀ lanes' := by
  have hmove := Session.stepEffect_moves heff
  refine ⟨h.tidy.step hmove, ?_, ?_, h.same.trans hmove.sameStates, ?_, ?_, hmain, hstreams,
    h.sweeping.step hmove⟩
  · rw [hmove.env_eq, Env.apply_files]
    exact h.sized.onFiles e
  · intro id st' hst'
    obtain ⟨st, hst, -, hsame⟩ := hmove.lookup_back hst'
    obtain ⟨st₀, hst₀, hsame₀⟩ := h.back id st hst
    exact ⟨st₀, hst₀, hsame₀.trans hsame⟩
  · intro i b st' hb hst' k
    obtain ⟨st, hst, rfl, -⟩ := hmove.lookup_back hst'
    have hle := hmarks ⟨i, k⟩
    rw [hbits i b st hb hst k, h.bits i b st hb hst k, or_assoc]
    refine or_congr_right ⟨fun hor => ?_, fun hpos => ?_⟩
    · rcases hor with hpos | hlt <;> omega
    · by_cases hzero : 0 < Lanes.marks lanes ⟨i, k⟩
      · exact Or.inl hzero
      · exact Or.inr (by omega)
  · intro i x st' hx hst'
    obtain ⟨st, hst, -, hsame⟩ := hmove.lookup_back hst'
    obtain ⟨ops, hsince, hcopies, hops⟩ := h.written i x st hx hst
    obtain ⟨hcopies', hcounts⟩ := hwrites i x st hx hst
    have hon : Effect.OnInode s.env.disk s'.env.disk e st.sink.ino := by
      rw [hmove.env_eq, Env.apply_disk]
      exact e.onInode (h.tidy.wired.lt hst)
    rw [hsame.sink, hsame.layout]
    refine ⟨_, hon.since hsince, fun op hop => ?_, fun k j hk hj => ?_⟩
    · exact (List.mem_append.1 hop).elim (hcopies op) (hcopies' op)
    · rw [writeCount_append, hops k j hk hj, hcounts k j hk hj]

/-- A step that marks no chunk and writes to no sink. -/
theorem step_aside (h : s.Receives p.blake3 n offered bitmaps s₀ lanes)
    (heff : s.stepEffect p a = some (s', e)) (hset : ∀ id i, e ≠ .setBit id i)
    (hops : ∀ id st, s.env.files.lookup id = some st → e.ops s.env.disk st.sink.ino = [])
    (hmain : s'.main.Completing) (hstreams : s'.workers.length + s'.main.left = n) :
    s'.Receives p.blake3 n offered bitmaps s₀ lanes := by
  refine h.step heff (fun i b st hb hst k => ?_) (fun _ => Nat.le_refl _)
    (fun i x st hx hst => ?_) hmain hstreams
  · rw [Effect.bitmap_onFile_of_ne _ st (hset _)]
    simp
  · rw [hops _ st hst]
    exact ⟨by simp, fun k j hk hj => by rw [writeCount_nil, Nat.add_zero]⟩

/-- A piece of the chunk in hand is written: it goes to its own file, into the range of its own
    chunk. -/
theorem piece (hlen : offered.length < 2 ^ 64)
    (h : s.Receives p.blake3 n offered bitmaps s₀ lanes) {i : Nat} {item : WorkItem}
    {marked todo : List WorkItem} {offset done m : Nat} {payload : List UInt8} {st : FileState}
    (hl : lanes[i]? = some ⟨marked, item :: todo, done⟩)
    (hx : item.Expected p.blake3 offered s.env.files offset payload st)
    (hfits : done + m ≤ payload.length)
    (heff : s.stepEffect p a
      = some (s', .pwrite st.sink.ino (offset + done) (slice payload done m)))
    (hmain : s'.main.Completing) (hstreams : s'.workers.length + s'.main.left = n) :
    s'.Receives p.blake3 n offered bitmaps s₀ (lanes.set i ⟨marked, item :: todo, done + m⟩) := by
  have hmarks : ∀ item', Lanes.marks (lanes.set i ⟨marked, item :: todo, done + m⟩) item'
      = Lanes.marks lanes item' := by
    intro item'
    have := Lanes.marks_set hl ⟨marked, item :: todo, done + m⟩ item'
    simp only at this
    omega
  refine h.step heff (fun i' b st' hb hst' k => ?_) (fun item' => (hmarks item').ge)
    (fun i' x st' hx' hst' => ?_) hmain hstreams
  · rw [Effect.bitmap_onFile_of_ne _ st' (by simp), hmarks]
    simp
  · obtain ⟨x₀, hx₀, hindex, hoffset, hpayload⟩ := chunkOf_ok_iff.1 hx.chunk
    have hcount := fun k j => Lanes.writes_set hl ⟨marked, item :: todo, done + m⟩ ⟨i', k⟩ j
    simp only [Lane.writes_piece] at hcount
    simp only [Effect.ops]
    by_cases hfile : i' = item.fileIndex
    · subst hfile
      obtain rfl := Option.some.inj (hst'.symm.trans hx.lookup)
      obtain rfl := Option.some.inj (hx'.symm.trans hx₀)
      rw [if_pos rfl]
      refine ⟨fun op hop => ?_, fun k j hk hj => ?_⟩
      · obtain rfl := List.mem_singleton.1 hop
        have hcarried : Carries x.1.map offset payload := hpayload ▸ carries_slice
        exact hcarried.piece done m
      · have hthis := hcount k j
        simp only [WorkItem.mk_eq_iff] at hthis
        rw [hx.offset_eq, writeCount_piece hx.length_eq hfits hj]
        omega
    · have hino : ¬ st.sink.ino = st'.sink.ino := fun heq =>
        hfile (ofNat_inj_of_lt hlen (List.getElem?_eq_some_iff.1 hx').1
          (List.getElem?_eq_some_iff.1 hx₀).1
          (h.tidy.wired.distinct _ _ _ _ hst' hx.lookup heq.symm))
      rw [if_neg hino]
      refine ⟨by simp, fun k j hk hj => ?_⟩
      have hne : ¬ (⟨i', k⟩ : WorkItem) = item := fun heq => hfile (heq ▸ rfl)
      have hthis := hcount k j
      simp only [hne, false_and, if_false] at hthis
      rw [writeCount_nil]
      omega

/-- The chunk in hand is written from end to end, and its bit is set. -/
theorem mark (hlen : offered.length < 2 ^ 64) (hbitmaps : bitmaps.length = offered.length)
    (h : s.Receives p.blake3 n offered bitmaps s₀ lanes) {i : Nat} {item : WorkItem}
    {marked todo : List WorkItem} {offset : Nat} {payload : List UInt8} {st : FileState}
    (hl : lanes[i]? = some ⟨marked, item :: todo, payload.length⟩)
    (hx : item.Expected p.blake3 offered s.env.files offset payload st)
    (heff : s.stepEffect p a
      = some (s', .setBit (UInt64.ofNat item.fileIndex) item.chunkIndex))
    (hmain : s'.main.Completing) (hstreams : s'.workers.length + s'.main.left = n) :
    s'.Receives p.blake3 n offered bitmaps s₀ (lanes.set i ⟨marked ++ [item], todo, 0⟩) := by
  obtain ⟨x₀, hx₀, -⟩ := chunkOf_ok_iff.1 hx.chunk
  have hcount := fun item' => Lanes.marks_set hl ⟨marked ++ [item], todo, 0⟩ item'
  simp only [Lane.marks_mark] at hcount
  refine h.step heff (fun i' b st' hb hst' k => ?_) (fun item' => ?_)
    (fun i' x st' hx' hst' => ⟨by simp [Effect.ops], fun k j hk hj => ?_⟩) hmain hstreams
  · have hthis := hcount ⟨i', k⟩
    by_cases hfile : i' = item.fileIndex
    · subst hfile
      obtain rfl := Option.some.inj (hst'.symm.trans hx.lookup)
      obtain ⟨hwf, hsize⟩ := h.sized _ st' hst'
      obtain ⟨b', hset⟩ := ChunkBitmap.set_ok (hsize ▸ hx.index)
      simp only [Effect.onFile, if_true, hset]
      rw [ChunkBitmap.has_of_set hwf hset, Bool.or_eq_true, decide_eq_true_eq,
        ← WorkItem.mk_eq_iff item]
      refine or_congr_right ⟨fun heq => ?_, fun hlt => ?_⟩
      · rw [if_pos heq] at hthis
        omega
      · by_contra hne
        rw [if_neg hne] at hthis
        omega
    · have hid : ¬ UInt64.ofNat i' = UInt64.ofNat item.fileIndex := fun heq =>
        hfile (ofNat_inj_of_lt hlen (hbitmaps ▸ (List.getElem?_eq_some_iff.1 hb).1)
          (List.getElem?_eq_some_iff.1 hx₀).1 heq)
      have hne : ¬ (⟨i', k⟩ : WorkItem) = item := fun heq => hfile (heq ▸ rfl)
      rw [if_neg hne] at hthis
      simp only [Effect.onFile, if_neg hid]
      constructor
      · exact Or.inl
      · rintro (hbit | hlt)
        · exact hbit
        · omega
  · have hthis := hcount item'
    omega
  · have hend : (⟨i', k⟩ : WorkItem) = item → j < payload.length := by
      rintro rfl
      obtain rfl := Option.some.inj (hst'.symm.trans hx.lookup)
      rw [hx.length_eq]
      exact hj
    have hthis := Lanes.writes_set hl ⟨marked ++ [item], todo, 0⟩ ⟨i', k⟩ j
    rw [Lane.writes_mark hend] at hthis
    simp only [Effect.ops, writeCount_nil]
    omega

/-- **A step of a worker**, along what it does to the chunks of its stream. -/
theorem worker (hlen : offered.length < 2 ^ 64) (hbitmaps : bitmaps.length = offered.length)
    (h : s.Receives p.blake3 n offered bitmaps s₀ lanes) {i : Nat} {io : IoAct} {w : Worker}
    {l l' : Lane} (hw : s.workers[i]? = some w) (hl : lanes[i]? = some l)
    (hexp : ∀ item ∈ l.todo, ∃ offset payload st,
      item.Expected p.blake3 offered s.env.files offset payload st)
    (heff : s.stepEffect p (.worker i io) = some (s', e))
    (hmove : Lane.Move offered s.env.files w io l e l') :
    s'.Receives p.blake3 n offered bitmaps s₀ (lanes.set i l') := by
  have hrun : s'.main = s.main ∧ s'.workers.length = s.workers.length := by
    cases Session.stepEffect_cases heff with
    | worker hw' hstep => exact ⟨rfl, List.length_set⟩
  have hmain : s'.main.Completing := hrun.1 ▸ h.main
  have hstreams : s'.workers.length + s'.main.left = n := by
    rw [hrun.1, hrun.2]
    exact h.streams
  cases hmove with
  | stays hset hwrite =>
      have h' := h.step_aside heff hset (fun id st hst => ?_) hmain hstreams
      · refine h'.recount (fun item => ?_) (fun item j => ?_)
        · have := Lanes.marks_set hl l item
          omega
        · have := Lanes.writes_set hl l item j
          omega
      · rcases h.tidy.sink_write heff hst with hnil | ⟨j, m, v, c, done, ha, hv, hpc, -⟩
        · exact hnil
        · cases ha
          obtain rfl := Option.some.inj (hw.symm.trans hv)
          cases hwrite done hpc
  | writes hchunk hst hfits =>
      obtain ⟨offset', payload', st', hx⟩ := hexp _ List.mem_cons_self
      cases hchunk.symm.trans hx.chunk
      obtain rfl := Option.some.inj (hst.symm.trans hx.lookup)
      exact h.piece hlen hl hx hfits heff hmain hstreams
  | marks hchunk =>
      obtain ⟨offset', payload', st', hx⟩ := hexp _ List.mem_cons_self
      cases hchunk.symm.trans hx.chunk
      exact h.mark hlen hbitmaps hl hx heff hmain hstreams

/-- A step that no worker takes. -/
theorem other (h : s.Receives p.blake3 n offered bitmaps s₀ lanes) (ha : ∀ i io, a ≠ .worker i io)
    (heff : s.stepEffect p a = some (s', e)) (hmain : s'.main.Completing)
    (hstreams : s'.workers.length + s'.main.left = n) :
    s'.Receives p.blake3 n offered bitmaps s₀ lanes := by
  refine h.step_aside heff (Session.not_setBit_of_stepEffect ha heff) (fun id st hst => ?_)
    hmain hstreams
  rcases h.tidy.sink_write heff hst with hnil | ⟨j, m, v, c, done, heq, -⟩
  · exact hnil
  · exact absurd heq (ha _ _)

/-- **A step of `run`.** Where all workers have ended only over complete files, it goes on to the
    next file. -/
theorem main_step (h : s.Receives p.blake3 n offered bitmaps s₀ lanes) {io : IoAct} (hio : io ≠ .fail)
    (hcomplete : s.workers.length = n → (∀ w ∈ s.workers, ∃ r, w.pc = .ended r) →
      ∀ id st, s.env.files.lookup id = some st → st.bitmap.isComplete = true)
    (heff : s.stepEffect p (.main io) = some (s', e)) :
    s'.Receives p.blake3 n offered bitmaps s₀ lanes := by
  cases Session.stepEffect_cases heff with
  | @main io main e hmain =>
      have hnext := Session.mainStep_completing hmain hio h.main fun id todo st hpc hst => by
        have hstreams := h.streams
        rw [hpc] at hstreams
        exact hcomplete hstreams (h.tidy.locks.ended (by rw [hpc]; trivial)) id st hst
      refine h.other (by simp) heff hnext.1 ?_
      show s.workers.length + main.left = n
      rw [hnext.2]
      exact h.streams

end Session.Receives

end AetherLink
