import AetherLink.Proofs.Receipt

set_option autoImplicit false

/-! # Sharing out the queue

A transfer whose receiver has accepted the offered files over true bitmaps, while no call fails and
no stream is cut. The queue is shared out among the lanes: what is taken up and what is still queued
are together the chunks that are missing (`Transfer.Sharing`). Each lane links the two ends of its
stream, so every chunk that is taken up arrives; and once all receiving workers have ended nothing is
queued or under way, and every bitmap is complete. -/

namespace AetherLink

open Bytes Storage

/-! ## Honest steps -/

/-- No call fails and no stream is cut or refused. -/
def TransferAct.honest : TransferAct → Bool
  | .sender (.fail _) => false
  | .sendWorker _ (.fail _) => false
  | .lost _ => false
  | .session (.refuse _) => false
  | .session (.worker _ .fail) => false
  | .session (.main .fail) => false
  | .cut _ _ => false
  | _ => true

/-- The chunk is there and the bitmap of its file does not have it. -/
def missing (bitmaps : List ChunkBitmap) (item : WorkItem) : Bool :=
  bitmaps[item.fileIndex]?.any fun b =>
    decide (item.chunkIndex < b.count) && !b.has item.chunkIndex

theorem missing_iff {bitmaps : List ChunkBitmap} {item : WorkItem} :
    missing bitmaps item = true ↔ ∃ b, bitmaps[item.fileIndex]? = some b ∧
      item.chunkIndex < b.count ∧ b.has item.chunkIndex = false := by
  simp [missing, Option.any_eq_true]

/-! ## The start -/

/-- A session that has just accepted the offered files over these bitmaps: sinks are distinct and
    apart from records, and what a bitmap has is in its sink. -/
structure Session.Ready (c : Parties) (offered : List (SourceFile × FileEntry))
    (bitmaps : List ChunkBitmap) (s : Session) : Prop where
  main : s.main = .spawning c.senderConfig.streamCount.toNat
  workers : s.workers = []
  length_eq : bitmaps.length = offered.length
  serves : ∀ (i : Nat) x b, offered[i]? = some x → bitmaps[i]? = some b →
    ∃ st, s.env.files.lookup x.2.fileId = some st ∧
      st.Serves c.blake3 c.outputDir c.senderConfig.chunkSize x.2 ∧ st.bitmap = b
  only : ∀ id st, s.env.files.lookup id = some st → ∃ x ∈ offered, x.2.fileId = id
  sized : s.env.files.Sized
  named : ∀ id st, s.env.files.lookup id = some st →
    s.env.disk.node st.sink.path = some (.file st.sink.ino)
  distinct : ∀ id id' st st', s.env.files.lookup id = some st →
    s.env.files.lookup id' = some st' → st.sink.path = st'.sink.path → id = id'
  apart : NamesApart s.env.files
  held : ∀ (i : Nat) x st k, offered[i]? = some x →
    s.env.files.lookup x.2.fileId = some st → st.bitmap.has k = true →
    slice (s.env.disk.data st.sink.ino) (st.layout.start k) (st.layout.len k)
      = slice x.1.map (st.layout.start k) (st.layout.len k)

namespace Session.Ready

variable {c : Parties} {offered : List (SourceFile × FileEntry)} {bitmaps : List ChunkBitmap}
  {s : Session}

/-- The file of an offered source, with its bitmap. -/
theorem file (h : s.Ready c offered bitmaps) (hoffers : c.Offers offered) {i : Nat}
    {x : SourceFile × FileEntry} (hx : offered[i]? = some x) :
    ∃ b st, bitmaps[i]? = some b ∧ s.env.files.lookup (UInt64.ofNat i) = some st ∧
      st.Serves c.blake3 c.outputDir c.senderConfig.chunkSize x.2 ∧ st.bitmap = b := by
  have hi : i < bitmaps.length := h.length_eq ▸ (List.getElem?_eq_some_iff.1 hx).1
  have hb := List.getElem?_eq_getElem hi
  obtain ⟨st, hst, hserves, hbitmap⟩ := h.serves i x _ hx hb
  rw [hoffers.fileId_eq hx] at hst
  exact ⟨_, st, hb, hst, hserves, hbitmap⟩

theorem tidy (h : s.Ready c offered bitmaps) (hoffers : c.Offers offered) : s.Tidy c.blake3 := by
  have hidle : ∀ a, s.checkpointOf a = none := by
    intro a
    cases a with
    | none => simp [checkpointOf, h.main, MainPc.checkpoint?]
    | some i => simp [checkpointOf, h.workers]
  have hnone : ∀ w, w ∉ s.workers := by
    intro w hw
    rw [h.workers] at hw
    cases hw
  refine ⟨fun w hw => absurd hw (hnone w), ⟨h.named, fun id id' st st' hst hst' hino => ?_, ?_⟩,
    ⟨?_, ?_, ?_⟩, ⟨fun id st hst => (h.sized id st hst).1, fun id st hst => ?_, h.distinct⟩,
    h.apart, ?_⟩
  · exact h.distinct id id' st st' hst hst'
      (s.env.disk.node_inj _ _ _ (h.named id st hst) (hino ▸ h.named id' st' hst'))
  · intro a id pc tmp id' st hcp
    rw [hidle a] at hcp
    cases hcp
  · exact fun i w cur st hw => absurd (List.mem_of_getElem? hw) (hnone w)
  · exact fun i j w v cur d hw => absurd (List.mem_of_getElem? hw) (hnone w)
  · exact fun _ w hw => absurd hw (hnone w)
  · obtain ⟨x, hx, rfl⟩ := h.only id st hst
    obtain ⟨i, hi⟩ := List.mem_iff_getElem?.1 hx
    obtain ⟨b, st', -, hst', hserves, -⟩ := h.file hoffers hi
    rw [← hoffers.fileId_eq hi] at hst'
    obtain rfl := Option.some.inj (hst.symm.trans hst')
    exact hserves.named
  · intro a id pc st hcp
    rw [hidle a] at hcp
    cases hcp

end Session.Ready

/-- The state the receiver has of an offered file goes by the source's own layout and digests. -/
theorem OfferedAs.layout_eq {blake3 : Blake3} {chunkSize : UInt32} {f : OutgoingFile} {i : Nat}
    {x : SourceFile × FileEntry} {outputDir : FilePath} {st : FileState}
    (h : OfferedAs blake3 chunkSize f i x) (hserves : st.Serves blake3 outputDir chunkSize x.2) :
    st.layout = x.1.layout := by
  obtain ⟨hashes, -, hentry⟩ := h.entry_eq
  have hsize : x.2.sizeBytes = UInt64.ofNat f.data.length := by
    rw [hentry, SourceFile.entry, x.1.size_eq, h.map_eq]
  have hlayout := hserves.layout_ok
  rw [hsize, h.layout_ok] at hlayout
  exact (Except.ok.inj hlayout).symm

theorem OfferedAs.chunkHashes_eq {blake3 : Blake3} {chunkSize : UInt32} {f : OutgoingFile} {i : Nat}
    {x : SourceFile × FileEntry} {outputDir : FilePath} {st : FileState}
    (h : OfferedAs blake3 chunkSize f i x) (hserves : st.Serves blake3 outputDir chunkSize x.2) :
    st.chunkHashes = (List.range x.1.layout.count).map fun k =>
      hashChunk blake3 (slice x.1.map (x.1.layout.start k) (x.1.layout.len k)) := by
  obtain ⟨hashes, hhashes, hentry⟩ := h.entry_eq
  have hsplit := hserves.hashes_ok
  rw [x.1.chunkHashes_eq blake3, Except.ok.injEq] at hhashes
  have hcount : st.layout.count = hashes.length := by
    rw [h.layout_eq hserves, ← hhashes, List.length_map, List.length_range]
  rw [hentry, SourceFile.entry, hcount, splitHashes_concatHashes, Except.ok.injEq] at hsplit
  rw [← hsplit, hhashes]

/-- **A missing chunk is expected**: the sender has its bytes and the receiver its digest. -/
theorem Session.Ready.expected {c : Parties} {offered : List (SourceFile × FileEntry)}
    {bitmaps : List ChunkBitmap} {s : Session} (h : s.Ready c offered bitmaps)
    (hoffers : c.Offers offered) {files : Files} (hsame : SameStates s.env.files files)
    {item : WorkItem} (hmissing : missing bitmaps item = true) :
    ∃ offset payload st, item.Expected c.blake3 offered files offset payload st := by
  obtain ⟨b, hb, hlt, -⟩ := missing_iff.1 hmissing
  have hi : item.fileIndex < offered.length := h.length_eq ▸ (List.getElem?_eq_some_iff.1 hb).1
  have hx := List.getElem?_eq_getElem hi
  obtain ⟨b', st, hb', hst, hserves, rfl⟩ := h.file hoffers hx
  obtain rfl := Option.some.inj (hb.symm.trans hb')
  obtain ⟨f, -, hoff⟩ := hoffers.of_offered hx
  obtain ⟨st', hst', hsame'⟩ := hsame _ st hst
  have hlayout := hoff.layout_eq hserves
  have hindex : item.chunkIndex < offered[item.fileIndex].1.layout.count := by
    rw [← hlayout, ← (h.sized _ st hst).2]
    exact hlt
  have hdigests := hoff.chunkHashes_eq hserves
  refine ⟨_, _, st', chunkOf_ok_iff.2 ⟨_, hx, hindex, rfl, rfl⟩, hst', ?_, ?_, ?_, ?_⟩
  · rw [hsame'.layout, hlayout]
    exact hindex
  · rw [hsame'.layout, hlayout]
  · rw [hsame'.layout, hlayout]
    exact SourceFile.length_chunk _ hindex
  · rw [hsame'.chunkHashes, hdigests, List.getElem?_map, List.getElem?_range hindex]
    rfl

/-- Nothing has happened yet. -/
theorem Session.Ready.receives {c : Parties} {offered : List (SourceFile × FileEntry)}
    {bitmaps : List ChunkBitmap} {s : Session} (h : s.Ready c offered bitmaps)
    (hoffers : c.Offers offered) :
    s.Receives c.blake3 c.senderConfig.streamCount.toNat offered bitmaps s [] where
  tidy := h.tidy hoffers
  sized := h.sized
  back := fun id st hst => ⟨st, hst, .refl st⟩
  same := .refl _
  bits := by
    intro i b st hb hst k
    have hi : i < offered.length := h.length_eq ▸ (List.getElem?_eq_some_iff.1 hb).1
    obtain ⟨b', st', hb', hst', -, rfl⟩ := h.file hoffers (List.getElem?_eq_getElem hi)
    obtain rfl := Option.some.inj (hb.symm.trans hb')
    obtain rfl := Option.some.inj (hst.symm.trans hst')
    simp [Lanes.marks]
  written := fun i x st _ _ => ⟨[], .refl _ _, by simp, fun k j _ _ => by simp [Lanes.writes]⟩
  main := by
    rw [h.main]
    trivial
  streams := by
    rw [h.main, h.workers]
    exact Nat.zero_add _
  sweeping := by
    refine ⟨fun id hid => ?_, fun m hm => ?_⟩
    · rw [h.main] at hid
      exact absurd hid List.not_mem_nil
    · rw [h.main] at hm
      cases hm

/-! ## All lanes -/

theorem getElem?_concat_of_ne {α : Type} {l : List α} {i : Nat} (a : α) (h : l.length ≠ i) :
    (l ++ [a])[i]? = l[i]? := by
  rcases Nat.lt_or_gt_of_ne h with hlt | hlt
  · rw [List.getElem?_eq_none (Nat.le_of_lt hlt), List.getElem?_eq_none]
    rw [List.length_append, List.length_singleton]
    exact hlt
  · exact List.getElem?_append_left hlt

/-- Every lane links a sending worker with the receiving worker of its stream, which is as good as
    fresh while the stream is not yet accepted. -/
def Lanes.Linked (frameSize : Nat) (offered : List (SourceFile × FileEntry)) (lanes : List Lane)
    (senders : List SendWorker) (workers : List Worker) : Prop :=
  ∀ (i : Nat) l sw, lanes[i]? = some l → senders[i]? = some sw →
    l.Linked frameSize offered sw (workers[i]?.getD Worker.fresh)

/-- What happens on one stream leaves the others linked. -/
theorem Lanes.Linked.update {frameSize : Nat} {offered : List (SourceFile × FileEntry)}
    {lanes lanes' : List Lane} {senders senders' : List SendWorker} {workers workers' : List Worker}
    (h : Lanes.Linked frameSize offered lanes senders workers) (i : Nat)
    (hthis : ∀ l sw, lanes'[i]? = some l → senders'[i]? = some sw →
      l.Linked frameSize offered sw (workers'[i]?.getD Worker.fresh))
    (hother : ∀ j, i ≠ j → lanes'[j]? = lanes[j]? ∧ senders'[j]? = senders[j]? ∧
      workers'[j]?.getD Worker.fresh = workers[j]?.getD Worker.fresh) :
    Lanes.Linked frameSize offered lanes' senders' workers' := by
  intro j l sw hl hsw
  by_cases hij : i = j
  · subst hij
    exact hthis l sw hl hsw
  · obtain ⟨hlanes, hsenders, hworkers⟩ := hother j hij
    rw [hlanes] at hl
    rw [hsenders] at hsw
    rw [hworkers]
    exact h j l sw hl hsw

section Counts

variable (lanes : List Lane) (item : WorkItem)

theorem Lanes.marks_concat : marks (lanes ++ [Lane.empty]) item = marks lanes item := by
  simp [marks, Lane.empty]

theorem Lanes.writes_concat (j : Nat) :
    writes (lanes ++ [Lane.empty]) item j = writes lanes item j := by
  simp [writes, Lane.writes, Lane.empty]

theorem Lanes.takes_concat : takes (lanes ++ [Lane.empty]) item = takes lanes item := by
  simp [takes, Lane.items, Lane.empty]

end Counts

theorem Lanes.count_le_takes {lanes : List Lane} {l : Lane} (h : l ∈ lanes) (item : WorkItem) :
    l.items.count item ≤ takes lanes item :=
  List.single_le_sum (fun _ _ => Nat.zero_le _) _
    (List.mem_map_of_mem (f := fun l : Lane => l.items.count item) h)

/-- A chunk that is taken up is in no count but that of the chunks taken up. -/
theorem Lane.push_counts (l : Lane) (item item' : WorkItem) (j : Nat) :
    (l.push item).marked = l.marked ∧
      ((l.wrote = 0 ∨ l.todo ≠ []) → (l.push item).writes item' j = l.writes item' j) ∧
      (l.push item).items.count item' = l.items.count item' + if item = item' then 1 else 0 := by
  refine ⟨rfl, fun hbusy => ?_, ?_⟩
  · unfold writes push
    cases htodo : l.todo with
    | nil =>
        have hzero : l.wrote = 0 := hbusy.resolve_right (fun hne => hne htodo)
        simp [hzero]
    | cons x xs => simp
  · rw [Lane.items_push, List.count_append, List.count_singleton]
    simp

/-! ## A transfer under way -/

/-- How many streams `run` has still to establish. -/
def SenderPc.left : SenderPc → Nat
  | .spawning left => left
  | _ => 0

/-- `run` has read the receiver's answer. -/
def SenderPc.Serving : SenderPc → Prop
  | .opening => False
  | .greeting => False
  | .offering => False
  | .awaitingAccept => False
  | _ => True

/-- **The queue is shared out among the lanes.** What is taken up and what is still queued are
    together the missing chunks, each once; a worker that has found the queue empty leaves it so. -/
structure Transfer.Sharing (c : Parties) (offered : List (SourceFile × FileEntry))
    (bitmaps : List ChunkBitmap) (s₀ : Session) (t : Transfer) (s : Session) (lanes : List Lane) :
    Prop where
  offered_eq : t.sender.offered = offered
  receiver : ∃ accept totalBytes, t.receiver = .running accept totalBytes s
  serving : t.sender.main.Serving
  streams : t.sender.workers.length + t.sender.main.left = c.senderConfig.streamCount.toNat
  ahead : s.workers.length ≤ t.sender.workers.length
  length_eq : lanes.length = t.sender.workers.length
  linked : Lanes.Linked c.senderConfig.frameSize.toNat offered lanes t.sender.workers s.workers
  shared : ∀ item, Lanes.takes lanes item + t.sender.queue.count item
    = (missing bitmaps item).toNat
  drained : ∀ sw ∈ t.sender.workers, sw.pc.finishing = true → t.sender.queue = []
  receives : s.Receives c.blake3 c.senderConfig.streamCount.toNat offered bitmaps s₀ lanes

/-! ## Steps of the sender -/

/-- A step of `run` past the answer: it establishes a stream, or goes on. -/
theorem Sender.mainStep_serving {c : Parties} {s s' : Sender} {act : Act}
    (h : s.mainStep c.blake3 c.senderConfig c.files act = some s') (hserving : s.main.Serving)
    (hact : ∀ error, act ≠ .fail error) :
    (s'.offered = s.offered ∧ s'.queue = s.queue ∧ s'.main.Serving) ∧
      ((s'.workers = s.workers ∧ s'.main.left = s.main.left) ∨
        (s'.workers = s.workers ++ [SendWorker.fresh] ∧ s.main.left = s'.main.left + 1)) := by
  cases mainStep_moves h with
  | opened hmain hlen hoffered =>
      rw [hmain] at hserving
      exact hserving.elim
  | notOpened hmain | greets hmain | offers hmain | refused hmain =>
      rw [hmain] at hserving
      exact hserving.elim
  | accepted hmain hqueue =>
      rw [hmain] at hserving
      exact hserving.elim
  | spawns hmain => exact ⟨⟨rfl, rfl, trivial⟩, Or.inr ⟨rfl, by rw [hmain]; rfl⟩⟩
  | spawned hmain | confirms hmain =>
      exact ⟨⟨rfl, rfl, trivial⟩, Or.inl ⟨rfl, by rw [hmain]; rfl⟩⟩
  | joins hmain hw hpc | workerFailed hmain hw hpc =>
      exact ⟨⟨rfl, rfl, trivial⟩, Or.inl ⟨rfl, by rw [hmain]; rfl⟩⟩
  | joined hmain hw => exact ⟨⟨rfl, rfl, trivial⟩, Or.inl ⟨rfl, by rw [hmain]; rfl⟩⟩
  | @fails error hmain => exact absurd rfl (hact error)

/-- A step of a sending worker, with its effect. -/
theorem Sender.workerStep_ok {frameSize : UInt32} {s s' : Sender} {i : Nat} {io : SendIo}
    (h : s.workerStep frameSize i io = some s') :
    ∃ sw pc e, s.workers[i]? = some sw ∧ sw.pc.step frameSize s io = some (pc, e) ∧
      s' = { s.apply e with
        workers := s.workers.set i { stream := e.onStream sw.stream, pc := pc } } := by
  unfold workerStep at h
  split at h
  · cases h
  · next sw hsw =>
      split at h
      · cases h
      · next pc e hstep => exact ⟨sw, pc, e, hsw, hstep, (Option.some.inj h).symm⟩

/-- Where no chunk is in hand, no byte of one is written. -/
theorem Worker.Reads.wrote_eq {frameSize : Nat} {offered : List (SourceFile × FileEntry)}
    {w : Worker} {l : Lane} {bytes : List UInt8} (h : w.Reads frameSize offered l bytes) :
    l.wrote = 0 ∨ l.todo ≠ [] := by
  cases h with
  | holding hchunk hpc hcur hbuf => exact Or.inr (List.cons_ne_nil _ _)
  | _ => exact Or.inl rfl

/-- A worker finishes once the queue is empty. -/
theorem SendMove.finishing {frameSize : Nat} {s : Sender} {pc pc' : SendWorkerPc} {e : SendEffect}
    (h : SendMove frameSize s pc pc' e) (hfin : pc'.finishing = true) :
    s.queue = [] ∨ pc.finishing = true := by
  cases h with
  | pops hpc hqueue => cases hfin
  | finds hpc hqueue => exact Or.inl hqueue
  | writes hrest hpc hpc' =>
      rw [hpc'] at hfin
      cases hfin
  | tallies hstream hpop hrest hpc hpc' =>
      rw [hpc'] at hfin
      cases hfin
  | shuts hpc =>
      rw [hpc]
      exact Or.inr rfl
  | ends hpc =>
      rw [hpc]
      exact Or.inr rfl

namespace Transfer.Sharing

variable {c : Parties} {offered : List (SourceFile × FileEntry)} {bitmaps : List ChunkBitmap}
  {s₀ s s' : Session} {t t' : Transfer} {lanes : List Lane}

/-- A step of the sender's `run`, which may have read a message. -/
theorem sender_step (h : t.Sharing c offered bitmaps s₀ s lanes) {act : Sender.Act} {sender : Sender}
    (hact : ∀ error, act ≠ .fail error)
    (hstep : t.sender.mainStep c.blake3 c.senderConfig c.files act = some sender) (read : Nat) :
    ∃ lanes', ({ t with sender := sender, read := read } : Transfer).Sharing c offered bitmaps s₀ s
      lanes' := by
  obtain ⟨⟨hoffered, hqueue, hserving⟩, hworkers⟩ := Sender.mainStep_serving hstep h.serving hact
  rcases hworkers with ⟨hworkers, hleft⟩ | ⟨hworkers, hleft⟩
  · refine ⟨lanes, hoffered.trans h.offered_eq, h.receiver, hserving, ?_, ?_, ?_, ?_, ?_, ?_,
      h.receives⟩
    · rw [hworkers, hleft]
      exact h.streams
    · rw [hworkers]
      exact h.ahead
    · rw [hworkers]
      exact h.length_eq
    · rw [hworkers]
      exact h.linked
    · rw [hqueue]
      exact h.shared
    · rw [hworkers, hqueue]
      exact h.drained
  · -- a fresh stream, of which the receiver has seen nothing
    have hstreams := h.streams
    refine ⟨lanes ++ [Lane.empty], hoffered.trans h.offered_eq, h.receiver, hserving, ?_, ?_, ?_, ?_,
      ?_, ?_, h.receives.recount (Lanes.marks_concat lanes) (Lanes.writes_concat lanes)⟩
    · show sender.workers.length + sender.main.left = _
      rw [hworkers, List.length_append, List.length_singleton]
      omega
    · rw [hworkers, List.length_append]
      exact h.ahead.trans (Nat.le_add_right _ _)
    · rw [hworkers, List.length_append, List.length_append, h.length_eq]
      rfl
    · rw [hworkers]
      refine h.linked.update t.sender.workers.length (fun l sw hl hsw => ?_) fun j hj => ⟨?_, ?_, rfl⟩
      · rw [← h.length_eq, List.getElem?_concat_length, Option.some.injEq] at hl
        rw [List.getElem?_concat_length, Option.some.injEq] at hsw
        rw [← hl, ← hsw, List.getElem?_eq_none h.ahead]
        exact Lane.linked_fresh _ _
      · exact getElem?_concat_of_ne _ (h.length_eq ▸ hj)
      · exact getElem?_concat_of_ne _ hj
    · intro item
      rw [hqueue, Lanes.takes_concat]
      exact h.shared item
    · intro sw hsw
      rw [hworkers] at hsw
      rw [hqueue]
      rcases List.mem_append.1 hsw with hsw | hsw
      · exact h.drained sw hsw
      · obtain rfl := List.mem_singleton.1 hsw
        intro hfin
        cases hfin

/-- What is taken up or queued is missing. -/
theorem missing_of_mem (h : t.Sharing c offered bitmaps s₀ s lanes) {item : WorkItem}
    (hmem : item ∈ t.sender.queue ∨ ∃ l ∈ lanes, item ∈ l.items) : missing bitmaps item = true := by
  have hshared := h.shared item
  have hpos : 0 < Lanes.takes lanes item + t.sender.queue.count item := by
    rcases hmem with hmem | ⟨l, hl, hmem⟩
    · have := List.count_pos_iff.2 hmem
      omega
    · have := Lanes.count_le_takes hl item
      have := List.count_pos_iff.2 hmem
      omega
  cases hm : missing bitmaps item with
  | true => rfl
  | false =>
      rw [hm] at hshared
      simp only [Bool.toNat_false] at hshared
      omega

/-- The lane of a stream the sender has established. -/
theorem lane (h : t.Sharing c offered bitmaps s₀ s lanes) {i : Nat} {sw : SendWorker}
    (hsw : t.sender.workers[i]? = some sw) : ∃ l, lanes[i]? = some l ∧
      l.Linked c.senderConfig.frameSize.toNat offered sw (s.workers[i]?.getD Worker.fresh) := by
  have hi : i < lanes.length := h.length_eq ▸ (List.getElem?_eq_some_iff.1 hsw).1
  have hl := List.getElem?_eq_getElem hi
  exact ⟨_, hl, h.linked i _ sw hl hsw⟩

/-- The lane of a stream the receiver has accepted. -/
theorem lane_of_worker (h : t.Sharing c offered bitmaps s₀ s lanes) {i : Nat} {w : Worker}
    (hw : s.workers[i]? = some w) : ∃ l sw, lanes[i]? = some l ∧ t.sender.workers[i]? = some sw ∧
      l.Linked c.senderConfig.frameSize.toNat offered sw w := by
  have hi : i < t.sender.workers.length :=
    Nat.lt_of_lt_of_le (List.getElem?_eq_some_iff.1 hw).1 h.ahead
  have hsw := List.getElem?_eq_getElem hi
  obtain ⟨l, hl, hlink⟩ := h.lane hsw
  rw [hw, Option.getD_some] at hlink
  exact ⟨l, _, hl, hsw, hlink⟩

/-- **No receiving worker fails.** -/
theorem not_failed (h : t.Sharing c offered bitmaps s₀ s lanes) {w : Worker} (hw : w ∈ s.workers)
    (error : Error) : w.pc ≠ .ended (.error error) := by
  intro hpc
  obtain ⟨i, hi⟩ := List.mem_iff_getElem?.1 hw
  obtain ⟨l, sw, -, -, hlink⟩ := h.lane_of_worker hi
  cases (hlink.of_ended hpc).1

/-- Where the receiving worker of every stream has ended, every lane is done and its stream shut. -/
theorem lane_done (h : t.Sharing c offered bitmaps s₀ s lanes)
    (hall : s.workers.length = c.senderConfig.streamCount.toNat)
    (hended : ∀ w ∈ s.workers, ∃ r, w.pc = .ended r) {i : Nat} {sw : SendWorker}
    (hsw : t.sender.workers[i]? = some sw) :
    ∃ l, lanes[i]? = some l ∧ l.todo = [] ∧ sw.stream.shut = true ∧
      sw.stream.written = l.items.flatMap
        (WorkItem.wire c.senderConfig.frameSize.toNat offered) := by
  have hi : i < s.workers.length := by
    have hstreams := h.streams
    have := (List.getElem?_eq_some_iff.1 hsw).1
    omega
  have hw := List.getElem?_eq_getElem hi
  obtain ⟨l, sw', hl, hsw', hlink⟩ := h.lane_of_worker hw
  obtain rfl := Option.some.inj (hsw.symm.trans hsw')
  obtain ⟨r, hr⟩ := hended _ (List.mem_of_getElem? hw)
  have hshut := hlink.ended r hr
  have hsent := hlink.sent
  have hrest : sw.pc.rest c.senderConfig.frameSize.toNat offered = [] := by
    rcases hlink.shut hshut with hpc | hpc <;> rw [hpc] <;> rfl
  rw [hrest, List.append_nil] at hsent
  exact ⟨l, hl, (hlink.of_ended hr).2, hshut, hsent⟩

/-- Then every missing chunk has been taken up, marked and written. -/
theorem all_done (h : t.Sharing c offered bitmaps s₀ s lanes)
    (hstreams : 0 < c.senderConfig.streamCount.toNat)
    (hall : s.workers.length = c.senderConfig.streamCount.toNat)
    (hended : ∀ w ∈ s.workers, ∃ r, w.pc = .ended r) (item : WorkItem) :
    Lanes.takes lanes item = (missing bitmaps item).toNat ∧
      Lanes.marks lanes item = (missing bitmaps item).toNat ∧
      ∀ j, Lanes.writes lanes item j = (missing bitmaps item).toNat := by
  have hqueue : t.sender.queue = [] := by
    have hlen := h.ahead
    have hsw := List.getElem?_eq_getElem (l := t.sender.workers) (i := 0) (by omega)
    obtain ⟨l, hl, -, hshut, -⟩ := h.lane_done hall hended hsw
    have hlink := h.linked 0 l _ hl hsw
    refine h.drained _ (List.mem_of_getElem? hsw) ?_
    rcases hlink.shut hshut with hpc | hpc <;> rw [hpc] <;> rfl
  have hdone : ∀ l ∈ lanes, l.todo = [] := by
    intro l hl
    obtain ⟨i, hi⟩ := List.mem_iff_getElem?.1 hl
    have hsw := List.getElem?_eq_getElem (l := t.sender.workers) (i := i)
      (h.length_eq ▸ (List.getElem?_eq_some_iff.1 hi).1)
    obtain ⟨l', hl', hnil, -⟩ := h.lane_done hall hended hsw
    obtain rfl := Option.some.inj (hi.symm.trans hl')
    exact hnil
  have htakes := h.shared item
  rw [hqueue, List.count_nil, Nat.add_zero] at htakes
  obtain ⟨hmarks, hwrites⟩ := Lanes.of_done hdone item
  exact ⟨htakes, hmarks.trans htakes, fun j => (hwrites j).trans htakes⟩

section Honest

variable (hready : s₀.Ready c offered bitmaps) (hoffers : c.Offers offered)
  (hpos : 0 < c.senderConfig.frameSize.toNat)
  (hmax : c.senderConfig.frameSize.toNat ≤ MAX_FRAME_PAYLOAD)
include hready hoffers

/-- The receiver expects every chunk that is taken up or queued. -/
theorem expected (h : t.Sharing c offered bitmaps s₀ s lanes) {item : WorkItem}
    (hmem : item ∈ t.sender.queue ∨ ∃ l ∈ lanes, item ∈ l.items) :
    ∃ offset payload st, item.Expected c.blake3 offered s.env.files offset payload st :=
  hready.expected hoffers h.receives.same (h.missing_of_mem hmem)

include hpos

/-- **A step of a sending worker** takes up the next chunk, or goes on with the one in hand. -/
theorem sendWorker_step (h : t.Sharing c offered bitmaps s₀ s lanes) {i : Nat} {sender : Sender}
    (hstep : t.sender.workerStep c.senderConfig.frameSize i .next = some sender) :
    ∃ lanes', ({ t with sender := sender } : Transfer).Sharing c offered bitmaps s₀ s lanes' := by
  obtain ⟨sw, pc, e, hsw, hpc, rfl⟩ := Sender.workerStep_ok hstep
  obtain ⟨l, hl, hlink⟩ := h.lane hsw
  have hi := (List.getElem?_eq_some_iff.1 hsw).1
  have hoffered := h.offered_eq
  have hmove : SendMove c.senderConfig.frameSize.toNat t.sender sw.pc pc e := by
    refine SendWorkerPc.step_next hpos (fun item hitem => ?_) hpc
    obtain ⟨offset, payload, st, hx⟩ := h.expected hready hoffers (Or.inl hitem)
    rw [hoffered]
    exact ⟨_, hx.chunk⟩
  have hreceiver := h.receiver
  have hlength := h.length_eq
  have hahead := h.ahead
  by_cases hpop : e = .pop
  · subst hpop
    cases hmove with
    | tallies hstream hne => exact absurd rfl hne
    | @pops item rest hpopping hqueue =>
        have hbusy := hlink.reads.wrote_eq
        obtain ⟨hmarked, hwrites, hitems⟩ := l.push_counts item item 0
        refine ⟨lanes.set i (l.push item), hoffered, hreceiver, h.serving, ?_, ?_, ?_, ?_, ?_, ?_,
          h.receives.recount (fun item' => ?_) fun item' j => ?_⟩
        · rw [List.length_set]
          exact h.streams
        · rw [List.length_set]
          exact hahead
        · rw [List.length_set, List.length_set]
          exact hlength
        · refine h.linked.update i (fun l' sw' hl' hsw' => ?_) fun j hij => ?_
          · rw [List.getElem?_set_self (hlength ▸ hi), Option.some.injEq] at hl'
            rw [List.getElem?_set_self hi, Option.some.injEq] at hsw'
            rw [← hl', ← hsw']
            exact hlink.pop hpopping item
          · exact ⟨List.getElem?_set_ne hij, List.getElem?_set_ne hij, rfl⟩
        · intro item'
          have htakes := Lanes.takes_set hl (l.push item) item'
          have hshared := h.shared item'
          rw [(l.push_counts item item' 0).2.2] at htakes
          rw [hqueue, List.count_cons] at hshared
          show Lanes.takes _ item' + t.sender.queue.tail.count item' = _
          rw [hqueue, List.tail_cons]
          simp only [beq_iff_eq] at hshared
          omega
        · intro sw' hsw' hfin
          rcases List.mem_or_eq_of_mem_set hsw' with hold | rfl
          · rw [h.drained sw' hold hfin] at hqueue
            cases hqueue
          · cases hfin
        · have := Lanes.marks_set hl (l.push item) item'
          rw [hmarked] at this
          omega
        · have := Lanes.writes_set hl (l.push item) item' j
          rw [(l.push_counts item item' j).2.1 hbusy] at this
          omega
  · have hqueue : (t.sender.apply e).queue = t.sender.queue := by
      cases e with
      | pop => exact absurd rfl hpop
      | _ => rfl
    refine ⟨lanes, hoffered, hreceiver, h.serving, ?_, ?_, ?_, ?_, ?_, ?_, h.receives⟩
    · rw [List.length_set]
      exact h.streams
    · rw [List.length_set]
      exact hahead
    · rw [List.length_set]
      exact hlength
    · refine h.linked.update i (fun l' sw' hl' hsw' => ?_) fun j hij =>
        ⟨rfl, List.getElem?_set_ne hij, rfl⟩
      obtain rfl := Option.some.inj (hl.symm.trans hl')
      rw [List.getElem?_set_self hi, Option.some.injEq] at hsw'
      rw [← hsw']
      subst hoffered
      exact hlink.send hmove hpop
    · intro item
      show Lanes.takes lanes item + (t.sender.apply e).queue.count item = _
      rw [hqueue]
      exact h.shared item
    · intro sw' hsw' hfin
      show (t.sender.apply e).queue = []
      rw [hqueue]
      rcases List.mem_or_eq_of_mem_set hsw' with hold | rfl
      · exact h.drained sw' hold hfin
      · rcases hmove.finishing hfin with hnil | hfin'
        · exact hnil
        · exact h.drained sw (List.mem_of_getElem? hsw) hfin'

omit hpos in
/-- **Then every bitmap is complete.** -/
theorem complete (h : t.Sharing c offered bitmaps s₀ s lanes)
    (hstreams : 0 < c.senderConfig.streamCount.toNat)
    (hall : s.workers.length = c.senderConfig.streamCount.toNat)
    (hended : ∀ w ∈ s.workers, ∃ r, w.pc = .ended r) {id : UInt64} {st : FileState}
    (hst : s.env.files.lookup id = some st) : st.bitmap.isComplete = true := by
  obtain ⟨st₀, hst₀, hsame⟩ := h.receives.back id st hst
  obtain ⟨x, hx, rfl⟩ := hready.only id st₀ hst₀
  obtain ⟨i, hi⟩ := List.mem_iff_getElem?.1 hx
  obtain ⟨b, st', hb, hst', -, rfl⟩ := hready.file hoffers hi
  rw [hoffers.fileId_eq hi] at hst hst₀
  obtain rfl := Option.some.inj (hst₀.symm.trans hst')
  obtain ⟨hwf, hcount⟩ := h.receives.sized _ st hst
  refine hwf.isComplete_iff.2 fun k hk => (h.receives.bits i _ st hb hst k).2 ?_
  by_cases hheld : st₀.bitmap.has k = true
  · exact Or.inl hheld
  · have hlt : k < st₀.bitmap.count := by
      rw [(hready.sized _ st₀ hst₀).2, ← hsame.layout, ← hcount]
      exact hk
    have hmissing : missing bitmaps ⟨i, k⟩ = true :=
      missing_iff.2 ⟨_, hb, hlt, by simpa using hheld⟩
    rw [(h.all_done hstreams hall hended ⟨i, k⟩).2.1, hmissing]
    exact Or.inr Nat.one_pos

/-! ### Steps of the session -/

omit hready hoffers hpos in
/-- The session goes on and the lanes with it, while the sender stands still. -/
theorem of_session (h : t.Sharing c offered bitmaps s₀ s lanes) {lanes' : List Lane}
    (accept : ManifestAccept) (totalBytes : UInt64)
    (hahead : s'.workers.length ≤ t.sender.workers.length) (hlen : lanes'.length = lanes.length)
    (hlinked : Lanes.Linked c.senderConfig.frameSize.toNat offered lanes' t.sender.workers s'.workers)
    (htakes : ∀ item, Lanes.takes lanes' item = Lanes.takes lanes item)
    (hreceives : s'.Receives c.blake3 c.senderConfig.streamCount.toNat offered bitmaps s₀ lanes') :
    ({ t with receiver := .running accept totalBytes s' } : Transfer).Sharing c offered bitmaps s₀ s'
      lanes' where
  offered_eq := h.offered_eq
  receiver := ⟨accept, totalBytes, rfl⟩
  serving := h.serving
  streams := h.streams
  ahead := hahead
  length_eq := hlen.trans h.length_eq
  linked := hlinked
  shared := by
    intro item
    rw [htakes]
    exact h.shared item
  drained := h.drained
  receives := hreceives

include hmax

/-- **A step of a receiving worker.** -/
theorem worker_step (h : t.Sharing c offered bitmaps s₀ s lanes) (accept : ManifestAccept)
    {totalBytes : UInt64} {i : Nat} {io : IoAct} (hio : io ≠ .fail)
    (hstep : s.step (c.params totalBytes) (.worker i io) = some s') :
    ∃ lanes', ({ t with receiver := .running accept totalBytes s' } : Transfer).Sharing c offered
      bitmaps s₀ s' lanes' := by
  obtain ⟨e, heff, -⟩ := Session.step_moves hstep
  cases Session.stepEffect_cases heff with
  | @worker i io w w' e hw hwstep =>
      obtain ⟨l, sw, hl, hsw, hlink⟩ := h.lane_of_worker hw
      have hi := (List.getElem?_eq_some_iff.1 hw).1
      have hexp : ∀ item ∈ l.todo, ∃ offset payload st,
          item.Expected c.blake3 offered s.env.files offset payload st := fun item hitem =>
        h.expected hready hoffers
          (Or.inr ⟨l, List.mem_of_getElem? hl, List.mem_append_right _ hitem⟩)
      obtain ⟨l', hmove, hlink'⟩ := hlink.receive (p := c.params totalBytes) hpos hmax hexp
        (fun id st hst => (h.receives.sized id st hst).2) hio hwstep
      refine ⟨lanes.set i l', h.of_session accept totalBytes ?_ List.length_set ?_
        (fun item => ?_) ?_⟩
      · rw [List.length_set]
        exact h.ahead
      · refine h.linked.update i (fun l₁ sw₁ hl₁ hsw₁ => ?_) fun j hij => ?_
        · rw [List.getElem?_set_self (List.getElem?_eq_some_iff.1 hl).1,
            Option.some.injEq] at hl₁
          obtain rfl := Option.some.inj (hsw.symm.trans hsw₁)
          rw [List.getElem?_set_self hi, Option.getD_some, ← hl₁]
          exact hlink'
        · exact ⟨List.getElem?_set_ne hij, rfl, by rw [List.getElem?_set_ne hij]⟩
      · have := Lanes.takes_set hl l' item
        rw [hmove.items_eq] at this
        omega
      · exact Session.Receives.worker (p := c.params totalBytes) hoffers.length_lt
          hready.length_eq h.receives hw hl hexp heff hmove

omit hmax hpos in
/-- **A step of the receiver's `run`.** -/
theorem main_step (h : t.Sharing c offered bitmaps s₀ s lanes)
    (hstreams : 0 < c.senderConfig.streamCount.toNat) (accept : ManifestAccept)
    {totalBytes : UInt64} {io : IoAct} (hio : io ≠ .fail)
    (hstep : s.step (c.params totalBytes) (.main io) = some s') :
    ({ t with receiver := .running accept totalBytes s' } : Transfer).Sharing c offered bitmaps s₀ s'
      lanes := by
  obtain ⟨e, heff, -⟩ := Session.step_moves hstep
  have hworkers : s'.workers = s.workers := by
    cases Session.stepEffect_cases heff with
    | main hmain => rfl
  refine h.of_session accept totalBytes ?_ rfl ?_ (fun _ => rfl) ?_
  · rw [hworkers]
    exact h.ahead
  · rw [hworkers]
    exact h.linked
  · exact Session.Receives.main_step (p := c.params totalBytes) h.receives hio
      (fun hall hended id st hst => h.complete hready hoffers hstreams hall hended hst) heff

omit hready hoffers hmax hpos in
/-- The receiver accepts the next stream. -/
theorem accept_step (h : t.Sharing c offered bitmaps s₀ s lanes) (accept : ManifestAccept)
    {totalBytes : UInt64} (htaken : s.workers.length < t.sender.workers.length)
    (hstep : s.step (c.params totalBytes) .accept = some s') :
    ({ t with receiver := .running accept totalBytes s' } : Transfer).Sharing c offered bitmaps s₀ s'
      lanes := by
  obtain ⟨e, heff, -⟩ := Session.step_moves hstep
  cases Session.stepEffect_cases heff with
  | @accept left hmain =>
      have hstreams := h.receives.streams
      rw [hmain, MainPc.left] at hstreams
      refine h.of_session accept totalBytes ?_ rfl ?_ (fun _ => rfl) ?_
      · rw [List.length_append]
        exact htaken
      · refine h.linked.update s.workers.length (fun l sw hl hsw => ?_) fun j hj => ⟨rfl, rfl, ?_⟩
        · have hlink := h.linked _ l sw hl hsw
          rw [List.getElem?_eq_none (Nat.le_refl _)] at hlink
          rw [List.getElem?_concat_length]
          exact hlink
        · rw [getElem?_concat_of_ne _ hj]
      · refine Session.Receives.other (p := c.params totalBytes) h.receives (by simp) heff trivial ?_
        show (s.workers ++ [Worker.fresh]).length + left = _
        rw [List.length_append, List.length_singleton]
        omega

omit hready hoffers hmax hpos in
/-- Every worker is joined, and none has failed. -/
theorem join_step (h : t.Sharing c offered bitmaps s₀ s lanes) (accept : ManifestAccept)
    {totalBytes : UInt64} {order : List UInt64}
    (hstep : s.step (c.params totalBytes) (.join order) = some s') :
    ({ t with receiver := .running accept totalBytes s' } : Transfer).Sharing c offered bitmaps s₀ s'
      lanes := by
  obtain ⟨e, heff, -⟩ := Session.step_moves hstep
  cases Session.stepEffect_cases heff with
  | join hmain hended horder hnext =>
      rcases hnext with ⟨error, herror, -⟩ | ⟨-, rfl⟩
      · obtain ⟨w, hw, hfail⟩ := List.exists_of_findSome?_eq_some herror
        split at hfail
        · next err hpc => exact absurd hpc (h.not_failed hw err)
        · cases hfail
      · have hstreams := h.receives.streams
        rw [hmain] at hstreams
        exact h.of_session accept totalBytes h.ahead rfl h.linked (fun _ => rfl)
          (Session.Receives.other (p := c.params totalBytes) h.receives (by simp) heff trivial
            hstreams)

/-! ### Arrivals -/

omit hready hoffers hmax hpos in
/-- The next bytes of a stream arrive. -/
theorem deliver_step (h : t.Sharing c offered bitmaps s₀ s lanes) (accept : ManifestAccept)
    {totalBytes : UInt64} {i n : Nat} {sw : SendWorker} (hsw : t.sender.workers[i]? = some sw)
    (hn : sw.stream.delivered + n ≤ sw.stream.written.length)
    (hstep : s.step (c.params totalBytes)
      (.deliver i ((sw.stream.written.drop sw.stream.delivered).take n)) = some s') :
    ({ t with
        sender := { t.sender with
          workers := t.sender.workers.set i { sw with
            stream := { sw.stream with delivered := sw.stream.delivered + n } } }
        receiver := .running accept totalBytes s' } : Transfer).Sharing c offered bitmaps s₀ s'
      lanes := by
  obtain ⟨e, heff, -⟩ := Session.step_moves hstep
  cases Session.stepEffect_cases heff with
  | @deliver i bytes w hw hopen =>
      obtain ⟨l, sw', hl, hsw', hlink⟩ := h.lane_of_worker hw
      obtain rfl := Option.some.inj (hsw.symm.trans hsw')
      have hi := (List.getElem?_eq_some_iff.1 hsw).1
      refine ⟨h.offered_eq, ⟨accept, totalBytes, rfl⟩, h.serving, ?_, ?_, ?_, ?_, h.shared, ?_, ?_⟩
      · rw [List.length_set]
        exact h.streams
      · rw [List.length_set, List.length_set]
        exact h.ahead
      · rw [List.length_set]
        exact h.length_eq
      · refine h.linked.update i (fun l₁ sw₁ hl₁ hsw₁ => ?_) fun j hij =>
          ⟨rfl, List.getElem?_set_ne hij, by rw [List.getElem?_set_ne hij]⟩
        obtain rfl := Option.some.inj (hl.symm.trans hl₁)
        rw [List.getElem?_set_self hi, Option.some.injEq] at hsw₁
        rw [List.getElem?_set_self (List.getElem?_eq_some_iff.1 hw).1, Option.getD_some, ← hsw₁]
        exact hlink.deliver hn
      · intro sw₁ hsw₁ hfin
        rcases List.mem_or_eq_of_mem_set hsw₁ with hold | rfl
        · exact h.drained sw₁ hold hfin
        · exact h.drained sw (List.mem_of_getElem? hsw) hfin
      · refine Session.Receives.other (p := c.params totalBytes) h.receives (by simp) heff
          h.receives.main ?_
        rw [List.length_set]
        exact h.receives.streams

omit hready hoffers hmax hpos in
/-- The end of a stream arrives. -/
theorem eof_step (h : t.Sharing c offered bitmaps s₀ s lanes) (accept : ManifestAccept)
    {totalBytes : UInt64} {i : Nat} {sw : SendWorker} (hsw : t.sender.workers[i]? = some sw)
    (hshut : sw.stream.shut = true) (hall : sw.stream.delivered = sw.stream.written.length)
    (hstep : s.step (c.params totalBytes) (.close i .eof) = some s') :
    ({ t with receiver := .running accept totalBytes s' } : Transfer).Sharing c offered bitmaps s₀ s'
      lanes := by
  obtain ⟨e, heff, -⟩ := Session.step_moves hstep
  cases Session.stepEffect_cases heff with
  | @close i how w hw hopen =>
      obtain ⟨l, sw', hl, hsw', hlink⟩ := h.lane_of_worker hw
      obtain rfl := Option.some.inj (hsw.symm.trans hsw')
      refine h.of_session accept totalBytes ?_ rfl ?_ (fun _ => rfl) ?_
      · rw [List.length_set]
        exact h.ahead
      · refine h.linked.update i (fun l₁ sw₁ hl₁ hsw₁ => ?_) fun j hij =>
          ⟨rfl, rfl, by rw [List.getElem?_set_ne hij]⟩
        obtain rfl := Option.some.inj (hl.symm.trans hl₁)
        obtain rfl := Option.some.inj (hsw.symm.trans hsw₁)
        rw [List.getElem?_set_self (List.getElem?_eq_some_iff.1 hw).1, Option.getD_some]
        exact hlink.eof hshut hall
      · refine Session.Receives.other (p := c.params totalBytes) h.receives (by simp) heff
          h.receives.main ?_
        rw [List.length_set]
        exact h.receives.streams

/-! ### Every step -/

/-- **Every honest step keeps the queue shared out.** -/
theorem step (h : t.Sharing c offered bitmaps s₀ s lanes)
    (hstreams : 0 < c.senderConfig.streamCount.toNat) {a : TransferAct} (ha : a.honest = true)
    (hmove : Transfer.Move c t a t') :
    ∃ s' lanes', t'.Sharing c offered bitmaps s₀ s' lanes' := by
  obtain ⟨accept₀, totalBytes₀, hrunning⟩ := h.receiver
  cases hmove with
  | @sender act sender hact hstep =>
      refine ⟨s, h.sender_step (fun error heq => ?_) hstep t.read⟩
      rw [heq] at ha
      cases ha
  | reads hbody hstep => exact ⟨s, h.sender_step (by simp) hstep (t.read + 1)⟩
  | @sendWorker i io sender hstep =>
      cases io with
      | next => exact ⟨s, h.sendWorker_step hready hoffers hpos hstep⟩
      | fail n => cases ha
  | hello told hreceiver hbody =>
      rw [hrunning] at hreceiver
      cases hreceiver
  | offer written hreceiver hbody hios =>
      rw [hrunning] at hreceiver
      cases hreceiver
  | lost error hreceiver => cases ha
  | @session act accept totalBytes s₁ s' hreceiver hact htaken hstep =>
      rw [hrunning] at hreceiver
      cases hreceiver
      cases act with
      | deliver i bytes => exact absurd rfl ((hact i).1 bytes)
      | close i how => exact absurd rfl ((hact i).2 how)
      | worker i io =>
          refine ⟨s', h.worker_step hready hoffers hpos hmax accept₀ (fun hio => ?_) hstep⟩
          rw [hio] at ha
          cases ha
      | accept => exact ⟨s', lanes, h.accept_step accept₀ (htaken rfl) hstep⟩
      | refuse error => cases ha
      | join order => exact ⟨s', lanes, h.join_step accept₀ hstep⟩
      | main io =>
          refine ⟨s', lanes, h.main_step hready hoffers hstreams accept₀ (fun hio => ?_) hstep⟩
          rw [hio] at ha
          cases ha
  | @deliver i n sw accept totalBytes s₁ s' hsw hn hreceiver hstep =>
      rw [hrunning] at hreceiver
      cases hreceiver
      exact ⟨s', lanes, h.deliver_step accept₀ hsw hn hstep⟩
  | @eof i sw accept totalBytes s₁ s' hsw hshut hall hreceiver hstep =>
      rw [hrunning] at hreceiver
      cases hreceiver
      exact ⟨s', lanes, h.eof_step accept₀ hsw hshut hall hstep⟩
  | cut hreceiver hstep => cases ha

end Honest

end Transfer.Sharing

end AetherLink
