import AetherLink.Proofs.Agreement
import Mathlib.Data.UInt

set_option autoImplicit false

/-! # The work queue

The sender queues the chunks the receiver does not hold: bitmap by bitmap in the order of the files,
chunk by chunk in the order of the indices. The receiver packs its bitmaps into `Accept`, the sender
parses them and cuts them into runs; composed, the queue is the complement of the bitmaps. -/

namespace AetherLink

open Bytes

/-! ## What the queue should be -/

/-- The order of the queue: by file, then by chunk. -/
def WorkItem.Before (a b : WorkItem) : Prop :=
  a.fileIndex < b.fileIndex ∨ (a.fileIndex = b.fileIndex ∧ a.chunkIndex < b.chunkIndex)

/-- The bitmap an accepted entry goes by; an entry that is not accepted has none. -/
def held (accept : ManifestAccept) (x : SourceFile × FileEntry) : Option ChunkBitmap :=
  if x.2.fileId ∈ accept.acceptedFileIds then
    (haveBitmap accept x.2 x.1.layout.count).toOption
  else none

/-- The items of one file, given its bitmap. -/
def fileItems (fileIndex : Nat) (held : Option ChunkBitmap) : List WorkItem :=
  held.elim [] fun b => b.missingChunks.map fun c => { fileIndex := fileIndex, chunkIndex := c }

/-- The items of the offered files, counting from `fileIndex`. -/
def neededItems (accept : ManifestAccept) :
    List (SourceFile × FileEntry) → Nat → List WorkItem
  | [], _ => []
  | x :: rest, fileIndex =>
      fileItems fileIndex (held accept x) ++ neededItems accept rest (fileIndex + 1)

/-- How many bytes of a file are needed. -/
def neededOf (x : SourceFile × FileEntry) (held : Option ChunkBitmap) : Nat :=
  held.elim 0 fun b => b.missingBytes x.1.layout

/-- How many bytes the needed chunks have. -/
def neededBytes (accept : ManifestAccept) (offered : List (SourceFile × FileEntry)) : Nat :=
  (offered.map fun x => neededOf x (held accept x)).sum

/-! ## One file -/

variable {accept : ManifestAccept}

/-- A bitmap the sender goes by fits the layout. -/
theorem haveBitmap_ok {entry : FileEntry} {count : Nat} {b : ChunkBitmap}
    (h : haveBitmap accept entry count = .ok b) : b.Reachable ∧ b.count = count := by
  unfold haveBitmap at h
  split at h
  · cases h
    exact ⟨.new count, rfl⟩
  · split at h
    · cases h
    · next b' hb' =>
        cases h
        exact ⟨.fromBytes hb', (ChunkBitmap.fromBytes_ok hb').2.1⟩

/-- A bitmap the sender cannot go by is the first one reported for the entry. -/
theorem haveBitmap_error {entry : FileEntry} {count : Nat} {e : Error}
    (h : haveBitmap accept entry count = .error e) :
    ∃ p e', accept.progress.find? (fun p => p.fileId == entry.fileId) = some p ∧
      ChunkBitmap.fromBytes p.haveBitmap count = .error e' ∧ e = .wire e' := by
  unfold haveBitmap at h
  split at h
  · cases h
  · next p hp =>
      split at h
      · next e' he' =>
          cases h
          exact ⟨p, e', hp, he', rfl⟩
      · cases h

/-- Queueing chunks that are there appends them. -/
theorem foldlM_queueChunk {fileIndex : Nat} {layout : ChunkLayout} {chunks : List Nat}
    (h : ∀ c ∈ chunks, c < layout.count) (acc : List WorkItem × UInt64) :
    chunks.foldlM (queueChunk fileIndex layout) acc
      = .ok (acc.1 ++ chunks.map (fun c => { fileIndex := fileIndex, chunkIndex := c }),
          acc.2 + UInt64.ofNat (chunks.map layout.len).sum) := by
  induction chunks generalizing acc with
  | nil => simp [pure, Except.pure]
  | cons x xs ih =>
      have hx : queueChunk fileIndex layout acc x
          = .ok (acc.1 ++ [{ fileIndex := fileIndex, chunkIndex := x }],
              acc.2 + UInt64.ofNat (layout.len x)) := by
        rw [queueChunk, layout.range_eq (h x List.mem_cons_self)]
      rw [List.foldlM_cons, hx]
      simp only [bind, Except.bind]
      rw [ih fun c hc => h c (List.mem_cons_of_mem _ hc)]
      simp only [List.map_cons, List.sum_cons, List.append_assoc, List.singleton_append,
        UInt64.ofNat_add, UInt64.add_assoc]

/-! ## All files -/

/-- **The queue is what is needed**, where every bitmap parses. -/
theorem buildQueue_ok {offered : List (SourceFile × FileEntry)}
    (h : ∀ x ∈ offered, x.2.fileId ∈ accept.acceptedFileIds →
      ∃ b, haveBitmap accept x.2 x.1.layout.count = .ok b) (fileIndex : Nat)
    (acc : List WorkItem × UInt64) :
    buildQueue accept offered fileIndex acc
      = .ok (acc.1 ++ neededItems accept offered fileIndex,
          acc.2 + UInt64.ofNat (neededBytes accept offered)) := by
  induction offered generalizing fileIndex acc with
  | nil => simp [buildQueue, neededItems, neededBytes]
  | cons x rest ih =>
      have hrest := ih fun y hy => h y (List.mem_cons_of_mem _ hy)
      obtain ⟨src, entry⟩ := x
      by_cases hacc : entry.fileId ∈ accept.acceptedFileIds
      · obtain ⟨b, hb⟩ := h _ List.mem_cons_self hacc
        have hheld : held accept (src, entry) = some b := by
          rw [held, if_pos hacc, hb]
          rfl
        have hin : ∀ i ∈ b.missingChunks, i < src.layout.count :=
          fun i hi => (haveBitmap_ok hb).2 ▸ (ChunkBitmap.mem_missingChunks.1 hi).1
        simp only [buildQueue, hacc, not_true, if_false, hb, chunksOf,
          ChunkBitmap.flatMap_missingRanges, foldlM_queueChunk hin, hrest, neededItems, hheld,
          fileItems, Option.elim_some, neededBytes, neededOf, List.map_cons, List.sum_cons,
          ChunkBitmap.missingBytes, UInt64.ofNat_add, UInt64.add_assoc, List.append_assoc]
      · have hheld : held accept (src, entry) = none := by rw [held, if_neg hacc]
        simp only [buildQueue, hacc, not_false_eq_true, if_true, hrest, neededItems, hheld,
          fileItems, Option.elim_none, neededBytes, neededOf, List.map_cons, List.sum_cons,
          List.nil_append, Nat.zero_add]

/-- The sender fails over the first accepted entry whose bitmap does not parse. -/
theorem buildQueue_error {offered : List (SourceFile × FileEntry)}
    (h : ∃ x ∈ offered, x.2.fileId ∈ accept.acceptedFileIds ∧
      ∃ e, haveBitmap accept x.2 x.1.layout.count = .error e) (fileIndex : Nat)
    (acc : List WorkItem × UInt64) :
    ∃ x ∈ offered, x.2.fileId ∈ accept.acceptedFileIds ∧
      ∃ e, haveBitmap accept x.2 x.1.layout.count = .error e ∧
        buildQueue accept offered fileIndex acc = .error e := by
  induction offered generalizing fileIndex acc with
  | nil =>
      obtain ⟨x, hx, -⟩ := h
      cases hx
  | cons x rest ih =>
      obtain ⟨src, entry⟩ := x
      have hlater : ∀ acc', (∃ x ∈ rest, x.2.fileId ∈ accept.acceptedFileIds ∧
          ∃ e, haveBitmap accept x.2 x.1.layout.count = .error e) →
          buildQueue accept ((src, entry) :: rest) fileIndex acc
            = buildQueue accept rest (fileIndex + 1) acc' →
          ∃ x ∈ (src, entry) :: rest, x.2.fileId ∈ accept.acceptedFileIds ∧
            ∃ e, haveBitmap accept x.2 x.1.layout.count = .error e ∧
              buildQueue accept ((src, entry) :: rest) fileIndex acc = .error e := by
        intro acc' hrest heq
        obtain ⟨y, hy, hacc, e, he, hb⟩ := ih hrest (fileIndex + 1) acc'
        exact ⟨y, List.mem_cons_of_mem _ hy, hacc, e, he, heq.trans hb⟩
      obtain ⟨y, hy, hyacc, e, he⟩ := h
      by_cases hacc : entry.fileId ∈ accept.acceptedFileIds
      · cases hb : haveBitmap accept entry src.layout.count with
        | error e' =>
            refine ⟨_, List.mem_cons_self, hacc, e', hb, ?_⟩
            simp only [buildQueue, hacc, not_true, if_false, hb]
        | ok b =>
            have hin : ∀ i ∈ b.missingChunks, i < src.layout.count :=
              fun i hi => (haveBitmap_ok hb).2 ▸ (ChunkBitmap.mem_missingChunks.1 hi).1
            rcases List.mem_cons.1 hy with rfl | hy
            · rw [hb] at he
              cases he
            · have hgoes : ∃ acc', buildQueue accept ((src, entry) :: rest) fileIndex acc
                  = buildQueue accept rest (fileIndex + 1) acc' := by
                simp only [buildQueue, hacc, not_true, if_false, hb, chunksOf,
                  ChunkBitmap.flatMap_missingRanges, foldlM_queueChunk hin]
                exact ⟨_, rfl⟩
              obtain ⟨acc', heq⟩ := hgoes
              exact hlater acc' ⟨y, hy, hyacc, e, he⟩ heq
      · rcases List.mem_cons.1 hy with rfl | hy
        · exact absurd hyacc hacc
        · refine hlater acc ⟨y, hy, hyacc, e, he⟩ ?_
          simp only [buildQueue, hacc, not_false_eq_true, if_true]

/-! ## The items needed -/

theorem mem_fileItems {fileIndex : Nat} {o : Option ChunkBitmap} {item : WorkItem} :
    item ∈ fileItems fileIndex o ↔ item.fileIndex = fileIndex ∧
      ∃ b, o = some b ∧ item.chunkIndex ∈ b.missingChunks := by
  cases o with
  | none => simp [fileItems]
  | some b =>
      simp only [fileItems, Option.elim_some, List.mem_map]
      constructor
      · rintro ⟨c, hmem, rfl⟩
        exact ⟨rfl, b, rfl, hmem⟩
      · rintro ⟨rfl, b', heq, hmem⟩
        cases heq
        exact ⟨_, hmem, rfl⟩

theorem mem_neededItems {offered : List (SourceFile × FileEntry)} {fileIndex : Nat}
    {item : WorkItem} :
    item ∈ neededItems accept offered fileIndex ↔ ∃ k x b, item.fileIndex = fileIndex + k ∧
      offered[k]? = some x ∧ held accept x = some b ∧ item.chunkIndex ∈ b.missingChunks := by
  induction offered generalizing fileIndex with
  | nil => simp [neededItems]
  | cons x rest ih =>
      rw [neededItems, List.mem_append, mem_fileItems, ih]
      constructor
      · rintro (⟨hidx, b, hb, hmem⟩ | ⟨k, y, b, hidx, hy, hb, hmem⟩)
        · exact ⟨0, x, b, hidx, rfl, hb, hmem⟩
        · exact ⟨k + 1, y, b, by omega, hy, hb, hmem⟩
      · rintro ⟨k, y, b, hidx, hy, hb, hmem⟩
        cases k with
        | zero =>
            rw [List.getElem?_cons_zero, Option.some.injEq] at hy
            subst hy
            exact Or.inl ⟨hidx, b, hb, hmem⟩
        | succ k => exact Or.inr ⟨k, y, b, by omega, hy, hb, hmem⟩

theorem ordered_missingChunks (b : ChunkBitmap) : b.missingChunks.Pairwise (· < ·) :=
  List.pairwise_lt_range.filter _

/-- The items come in order, each once. -/
theorem ordered_neededItems (accept : ManifestAccept) (offered : List (SourceFile × FileEntry))
    (fileIndex : Nat) : (neededItems accept offered fileIndex).Pairwise WorkItem.Before := by
  induction offered generalizing fileIndex with
  | nil => exact List.Pairwise.nil
  | cons x rest ih =>
      rw [neededItems, List.pairwise_append]
      refine ⟨?_, ih _, fun a ha b hb => ?_⟩
      · cases held accept x with
        | none => exact List.Pairwise.nil
        | some b =>
            rw [fileItems, Option.elim_some, List.pairwise_map]
            exact (ordered_missingChunks b).imp fun hlt => Or.inr ⟨rfl, hlt⟩
      · obtain ⟨k, y, b', hidx, -, -, -⟩ := mem_neededItems.1 hb
        have := (mem_fileItems.1 ha).1
        exact Or.inl (by omega)

/-! ## The queue against the bitmaps -/

/-- `remaining_bytes` of the bitmap of a file, if it has one. -/
def remainingFor (held : Option ChunkBitmap) (l : ChunkLayout) : UInt64 :=
  held.elim 0 fun b => (b.remainingBytes l).toOption.getD 0

/-- The queue and the byte count of the sender are right for these bitmaps, file by file; a file
    without one is not sent. -/
structure QueueFor (offered : List (SourceFile × FileEntry)) (held : Nat → Option ChunkBitmap)
    (queue : List WorkItem) (bytes : UInt64) : Prop where
  mem_iff : ∀ item, item ∈ queue ↔ ∃ x b, offered[item.fileIndex]? = some x ∧
    held item.fileIndex = some b ∧ item.chunkIndex < x.1.layout.count ∧
    b.get item.chunkIndex = .ok false
  ordered : queue.Pairwise WorkItem.Before
  remaining_ok : ∀ i x b, offered[i]? = some x → held i = some b →
    ∃ r, b.remainingBytes x.1.layout = .ok r
  remaining : bytes = (offered.zipIdx.map fun y => remainingFor (held y.2) y.1.1.layout).sum
  accounted : ∃ n, bytes = UInt64.ofNat n ∧
    n + (offered.zipIdx.map fun y => (held y.2).elim 0 fun b => b.heldBytes y.1.1.layout).sum
      = (offered.zipIdx.map fun y => (held y.2).elim 0 fun _ => y.1.1.layout.fileSize).sum

/-- Sums over the offered files, each with its index, agree term by term. -/
theorem map_zipIdx_congr {α : Type} {offered : List (SourceFile × FileEntry)}
    {f g : (SourceFile × FileEntry) × Nat → α}
    (h : ∀ i x, offered[i]? = some x → f (x, i) = g (x, i)) :
    offered.zipIdx.map f = offered.zipIdx.map g := by
  apply List.map_congr_left
  rintro ⟨x, i⟩ hmem
  exact h i x (List.mem_zipIdx_iff_getElem?.1 hmem)

theorem queueFor_neededItems {offered : List (SourceFile × FileEntry)}
    {bitmaps : Nat → Option ChunkBitmap}
    (hbitmaps : ∀ i x, offered[i]? = some x → bitmaps i = held accept x)
    (hcount : ∀ x ∈ offered, ∀ b, held accept x = some b → b.count = x.1.layout.count) :
    QueueFor offered bitmaps (neededItems accept offered 0)
      (UInt64.ofNat (neededBytes accept offered)) := by
  have hfits : ∀ i x b, offered[i]? = some x → bitmaps i = some b → b.count = x.1.layout.count :=
    fun i x b hx hb => hcount x (List.mem_of_getElem? hx) b (hbitmaps i x hx ▸ hb)
  -- the byte count as a sum over the files with their indices
  have hbytes : neededBytes accept offered
      = (offered.zipIdx.map fun y => neededOf y.1 (bitmaps y.2)).sum := by
    have hmap : offered.map (fun x => neededOf x (held accept x))
        = offered.zipIdx.map fun y => neededOf y.1 (held accept y.1) := by
      nth_rewrite 1 [← List.zipIdx_map_fst 0 offered]
      rw [List.map_map]
      rfl
    rw [neededBytes, hmap]
    congr 1
    exact map_zipIdx_congr fun i x hx => by rw [hbitmaps i x hx]
  refine ⟨fun item => ?_, ordered_neededItems accept offered 0, fun i x b hx hb => ?_, ?_, ?_⟩
  · rw [mem_neededItems]
    constructor
    · rintro ⟨k, x, b, hidx, hx, hb, hmem⟩
      obtain rfl : item.fileIndex = k := by omega
      obtain ⟨hlt, hclear⟩ := ChunkBitmap.mem_missingChunks.1 hmem
      have hc := hcount x (List.mem_of_getElem? hx) b hb
      exact ⟨x, b, hx, (hbitmaps _ x hx).trans hb, hc ▸ hlt, by rw [ChunkBitmap.get_eq hlt, hclear]⟩
    · rintro ⟨x, b, hx, hb, hlt, hclear⟩
      have hb' := (hbitmaps _ x hx) ▸ hb
      have hc := hcount x (List.mem_of_getElem? hx) b hb'
      refine ⟨item.fileIndex, x, b, by omega, hx, hb', ChunkBitmap.mem_missingChunks.2 ⟨by omega, ?_⟩⟩
      rwa [ChunkBitmap.get_eq (by omega), Except.ok.injEq] at hclear
  · exact ⟨_, ChunkBitmap.remainingBytes_eq (hfits i x b hx hb)⟩
  · have hterm : offered.zipIdx.map (fun y => remainingFor (bitmaps y.2) y.1.1.layout)
        = offered.zipIdx.map fun y => UInt64.ofNat (neededOf y.1 (bitmaps y.2)) := by
      refine map_zipIdx_congr fun i x hx => ?_
      cases hb : bitmaps i with
      | none => rfl
      | some b =>
          simp only [remainingFor, neededOf, Option.elim_some,
            ChunkBitmap.remainingBytes_eq (hfits i x b hx hb)]
          rfl
    rw [hbytes, hterm]
    induction offered.zipIdx with
    | nil => rfl
    | cons y ys ih => rw [List.map_cons, List.sum_cons, UInt64.ofNat_add, ih, List.map_cons,
        List.sum_cons]
  · refine ⟨_, rfl, ?_⟩
    have hterm : offered.zipIdx.map
          (fun y => (bitmaps y.2).elim 0 fun _ => y.1.1.layout.fileSize)
        = offered.zipIdx.map fun y => neededOf y.1 (bitmaps y.2) +
            (bitmaps y.2).elim 0 fun b => b.heldBytes y.1.1.layout := by
      refine map_zipIdx_congr fun i x hx => ?_
      cases hb : bitmaps i with
      | none => rfl
      | some b =>
          simp only [neededOf, Option.elim_some]
          exact (ChunkBitmap.missingBytes_add_heldBytes (hfits i x b hx hb)).symm
    rw [hbytes, hterm]
    induction offered.zipIdx with
    | nil => rfl
    | cons y ys ih =>
        simp only [List.map_cons, List.sum_cons]
        omega

/-! ## The receiver's own `Accept` -/

/-- The `Accept` the receiver makes of its bitmaps, entry by entry. -/
def acceptOf (offered : List (SourceFile × FileEntry)) (bitmaps : List ChunkBitmap) :
    ManifestAccept :=
  { acceptedFileIds := offered.map fun x => x.2.fileId
    progress := (offered.zip bitmaps).map fun y =>
      { fileId := y.1.2.fileId, haveBitmap := y.2.asBytes } }

/-- With distinct ids, the sender finds each file's own bitmap in it. -/
theorem haveBitmap_acceptOf {offered : List (SourceFile × FileEntry)} {bitmaps : List ChunkBitmap}
    (hids : (offered.map fun x => x.2.fileId).Nodup) {i : Nat} {x : SourceFile × FileEntry}
    {b : ChunkBitmap} (hx : offered[i]? = some x) (hb : bitmaps[i]? = some b) (hwf : b.Wf) :
    haveBitmap (acceptOf offered bitmaps) x.2 b.count = .ok b := by
  have hfind : (acceptOf offered bitmaps).progress.find? (fun p => p.fileId == x.2.fileId)
      = some { fileId := x.2.fileId, haveBitmap := b.asBytes } := by
    simp only [acceptOf]
    induction offered generalizing i bitmaps with
    | nil => simp at hx
    | cons y offered ih =>
        cases bitmaps with
        | nil => simp at hb
        | cons b' bitmaps =>
            rw [List.map_cons, List.nodup_cons] at hids
            cases i with
            | zero =>
                rw [List.getElem?_cons_zero, Option.some.injEq] at hx hb
                subst hx hb
                simp
            | succ i =>
                rw [List.getElem?_cons_succ] at hx hb
                have hne : y.2.fileId ≠ x.2.fileId := by
                  intro heq
                  exact hids.1 (heq ▸ List.mem_map_of_mem (List.mem_of_getElem? hx))
                rw [List.zip_cons_cons, List.map_cons, List.find?_cons_of_neg (by simpa using hne)]
                exact ih hids.2 hx hb
  rw [haveBitmap, hfind]
  simp only [hwf.fromBytes_asBytes]

/-- The answer the receiver's `run` writes is the one made of the bitmaps its files start with. -/
theorem answer_eq_acceptOf {blake3 : Blake3} {config : Config} {outputDir : FilePath}
    {chunkSize : UInt32} {disk : FileSystem} {entries : List (FileEntry × EntryIo)}
    {st : OfferState}
    (hoffer : offerLoop blake3 config outputDir chunkSize (.init disk) entries = .ok st)
    {offered : List (SourceFile × FileEntry)}
    (hentries : entries.map Prod.fst = offered.map Prod.snd) :
    ∃ bitmaps : List ChunkBitmap, bitmaps.length = offered.length ∧
      acceptOf offered bitmaps = { acceptedFileIds := st.accepted, progress := st.progress } ∧
      ((offered.map fun x => x.2.fileId).Nodup → ∀ (i : Nat) (x : SourceFile × FileEntry)
        (b : ChunkBitmap), offered[i]? = some x → bitmaps[i]? = some b →
        ∃ fs, st.files.lookup x.2.fileId = some fs ∧ fs.bitmap = b) := by
  obtain ⟨bitmaps, hb⟩ := answered_offerLoop hoffer
  have hlen : entries.length = offered.length := by
    simpa using congrArg List.length hentries
  have hids : (entries.map fun x => x.1.fileId) = offered.map fun x => x.2.fileId := by
    have := congrArg (List.map fun y : FileEntry => y.fileId) hentries
    rwa [List.map_map, List.map_map] at this
  -- paired with its bitmap, the entry of a file is the one the sender offered
  have hzip : (entries.zip bitmaps).map (Prod.map Prod.fst id)
      = (offered.zip bitmaps).map (Prod.map Prod.snd id) := by
    rw [← List.zip_map_left, ← List.zip_map_left, hentries]
  refine ⟨bitmaps, hb.length_eq.trans hlen, ?_, fun hnodup i x b hx hbi => ?_⟩
  · have hprogress := congrArg (List.map fun y : FileEntry × ChunkBitmap =>
      ({ fileId := y.1.fileId, haveBitmap := y.2.asBytes } : FileProgress)) hzip
    rw [List.map_map, List.map_map] at hprogress
    rw [acceptOf, hb.accepted, hb.progress, hids]
    exact congrArg _ hprogress.symm
  · have hmem : (x.2, b) ∈ (offered.zip bitmaps).map (Prod.map Prod.snd id) := by
      refine List.mem_map.2 ⟨(x, b), List.mem_iff_getElem?.2 ⟨i, ?_⟩, rfl⟩
      rw [List.getElem?_zip_eq_some]
      exact ⟨hx, hbi⟩
    rw [← hzip] at hmem
    obtain ⟨y, hy, hyx⟩ := List.mem_map.1 hmem
    obtain ⟨fs, hfs, hfsb⟩ := hb.own (hids ▸ hnodup) y hy
    rw [Prod.map, Prod.mk.injEq] at hyx
    exact ⟨fs, hyx.1 ▸ hfs, hfsb.trans hyx.2⟩

/-- A bitmap an accepted entry goes by has a bit per chunk. -/
theorem count_of_held {x : SourceFile × FileEntry} {b : ChunkBitmap} (h : held accept x = some b) :
    b.count = x.1.layout.count := by
  unfold held at h
  split at h
  · exact (haveBitmap_ok (toOption_eq_some.1 h)).2
  · cases h

/-- **The queue over the receiver's own `Accept`**: every bitmap parses back to itself. -/
theorem buildQueue_acceptOf {c : Parties} {offered : List (SourceFile × FileEntry)}
    (h : c.Offers offered) {bitmaps : List ChunkBitmap} (hlen : bitmaps.length = offered.length)
    (hfit : ∀ (i : Nat) (x : SourceFile × FileEntry) (b : ChunkBitmap), offered[i]? = some x →
      bitmaps[i]? = some b → b.Wf ∧ b.count = x.1.layout.count) :
    (∀ (i : Nat) (x : SourceFile × FileEntry) (b : ChunkBitmap), offered[i]? = some x →
      bitmaps[i]? = some b →
      haveBitmap (acceptOf offered bitmaps) x.2 x.1.layout.count = .ok b) ∧
    ∃ queue bytes, buildQueue (acceptOf offered bitmaps) offered 0 ([], 0) = .ok (queue, bytes) ∧
      QueueFor offered (fun i => bitmaps[i]?) queue bytes := by
  have hparse : ∀ (i : Nat) (x : SourceFile × FileEntry) (b : ChunkBitmap), offered[i]? = some x →
      bitmaps[i]? = some b → haveBitmap (acceptOf offered bitmaps) x.2 x.1.layout.count = .ok b := by
    intro i x b hx hb
    obtain ⟨hwf, hc⟩ := hfit i x b hx hb
    rw [← hc]
    exact haveBitmap_acceptOf h.nodup_ids hx hb hwf
  have hbitmap : ∀ (i : Nat) (x : SourceFile × FileEntry), offered[i]? = some x →
      ∃ b, bitmaps[i]? = some b ∧
        haveBitmap (acceptOf offered bitmaps) x.2 x.1.layout.count = .ok b := by
    intro i x hx
    have hi : i < bitmaps.length := hlen ▸ (List.getElem?_eq_some_iff.1 hx).1
    exact ⟨_, List.getElem?_eq_getElem hi, hparse i x _ hx (List.getElem?_eq_getElem hi)⟩
  refine ⟨hparse, _, _, buildQueue_ok (fun x hx _ => ?_) 0 ([], 0), ?_⟩
  · obtain ⟨i, hi⟩ := List.mem_iff_getElem?.1 hx
    obtain ⟨b, -, hb⟩ := hbitmap i x hi
    exact ⟨b, hb⟩
  · simp only [List.nil_append, UInt64.zero_add]
    refine queueFor_neededItems (fun i x hx => ?_) (fun _ _ _ => count_of_held)
    obtain ⟨b, hb, hhave⟩ := hbitmap i x hx
    have hacc : x.2.fileId ∈ (acceptOf offered bitmaps).acceptedFileIds :=
      List.mem_map_of_mem (List.mem_of_getElem? hx)
    rw [held, if_pos hacc, hhave, hb]
    rfl

/-- **The work queue is the complement of what the receiver holds.** With the receiver's own
    `Accept`, for any bitmaps of the right counts, every bitmap parses back to itself and the queue
    and byte count are right for them. With any `Accept`, the same holds for the accepted entries,
    each going by the first bitmap reported for it, or the first of these that does not parse is the
    sender's error. -/
theorem work_queue_complements {c : Parties} {offered : List (SourceFile × FileEntry)}
    (h : c.Offers offered) :
    (∀ bitmaps : List ChunkBitmap, bitmaps.length = offered.length →
      (∀ (i : Nat) (x : SourceFile × FileEntry) (b : ChunkBitmap), offered[i]? = some x →
        bitmaps[i]? = some b → b.Reachable ∧ b.count = x.1.layout.count) →
      (∀ (i : Nat) (x : SourceFile × FileEntry) (b : ChunkBitmap), offered[i]? = some x →
        bitmaps[i]? = some b →
        haveBitmap (acceptOf offered bitmaps) x.2 x.1.layout.count = .ok b) ∧
      ∃ queue bytes, buildQueue (acceptOf offered bitmaps) offered 0 ([], 0) = .ok (queue, bytes) ∧
        QueueFor offered (fun i => bitmaps[i]?) queue bytes) ∧
    (∀ accept : ManifestAccept,
      (∃ queue bytes, buildQueue accept offered 0 ([], 0) = .ok (queue, bytes) ∧
        QueueFor offered (fun i => offered[i]?.bind (held accept)) queue bytes) ∨
      ∃ x ∈ offered, x.2.fileId ∈ accept.acceptedFileIds ∧ ∃ p e,
        accept.progress.find? (fun p => p.fileId == x.2.fileId) = some p ∧
        ChunkBitmap.fromBytes p.haveBitmap x.1.layout.count = .error e ∧
        buildQueue accept offered 0 ([], 0) = .error (.wire e)) := by
  refine ⟨fun bitmaps hlen hfit => buildQueue_acceptOf h hlen fun i x b hx hb =>
    ⟨(hfit i x b hx hb).1.wf, (hfit i x b hx hb).2⟩, fun accept => ?_⟩
  by_cases hbad : ∃ x ∈ offered, x.2.fileId ∈ accept.acceptedFileIds ∧
      ∃ e, haveBitmap accept x.2 x.1.layout.count = .error e
  · obtain ⟨x, hx, hacc, e, he, hqueue⟩ := buildQueue_error hbad 0 ([], 0)
    obtain ⟨p, e', hp, hparse, rfl⟩ := haveBitmap_error he
    exact Or.inr ⟨x, hx, hacc, p, e', hp, hparse, hqueue⟩
  · refine Or.inl ⟨_, _, buildQueue_ok (fun x hx hacc => ?_) 0 ([], 0), ?_⟩
    · cases hb : haveBitmap accept x.2 x.1.layout.count with
      | ok b => exact ⟨b, rfl⟩
      | error e => exact absurd ⟨x, hx, hacc, e, hb⟩ hbad
    · simp only [List.nil_append, UInt64.zero_add]
      exact queueFor_neededItems (fun i x hx => by rw [hx, Option.bind_some])
        fun _ _ _ => count_of_held

/-- The first file is held and the second is not: the queue is the chunk of the second. A receiver that
    accepts the second alone, and reports it twice, has it sent by its first bitmap; one that reports
    the first without a bit is refused. -/
theorem work_queue_complements_twoFile :
    ∃ offered, twoFileParties.Offers offered ∧
      (buildQueue (acceptOf offered [oneChunkHeld, .new 1]) offered 0 ([], 0) = .ok ([⟨1, 0⟩], 1) ∧
        QueueFor offered (fun i => [oneChunkHeld, .new 1][i]?) [⟨1, 0⟩] 1) ∧
      QueueFor offered (fun i => offered[i]?.bind
        (held { acceptedFileIds := [1], progress := [⟨1, [0]⟩, ⟨1, [1]⟩] })) [⟨1, 0⟩] 1 ∧
      ∃ x ∈ offered, ∃ e, ChunkBitmap.fromBytes [] x.1.layout.count = .error e ∧
        buildQueue { acceptedFileIds := [0, 1], progress := [⟨0, []⟩] } offered 0 ([], 0)
          = .error (.wire e) := by
  have hopens : (openSources twoFileParties.blake3 65536 (twoFileParties.files.zip
      [{ opens := true, stats := true, maps := true }, { opens := true, stats := true, maps := true }])
      0).toOption.any (fun offered => decide (
        buildQueue (acceptOf offered [oneChunkHeld, .new 1]) offered 0 ([], 0)
          = .ok ([⟨1, 0⟩], 1) ∧
        buildQueue { acceptedFileIds := [1], progress := [⟨1, [0]⟩, ⟨1, [1]⟩] } offered 0 ([], 0)
          = .ok ([⟨1, 0⟩], 1) ∧
        (buildQueue { acceptedFileIds := [0, 1], progress := [⟨0, []⟩] } offered 0
          ([], 0)).toOption = none ∧
        offered.map (fun x => x.1.layout.count) = [1, 1])) = true := by
    decide +kernel
  obtain ⟨offered, hoffered, hcheck⟩ := exists_ok_of_any hopens
  obtain ⟨hqueue, hqueue', hqueue'', hcounts⟩ := of_decide_eq_true hcheck
  have hoffers : twoFileParties.Offers offered := ⟨_, rfl, hoffered⟩
  have hcount : ∀ x ∈ offered, x.1.layout.count = 1 := by
    intro x hx
    have hmem := List.mem_map_of_mem (f := fun x : SourceFile × FileEntry => x.1.layout.count) hx
    rw [hcounts] at hmem
    simpa using hmem
  have hfit : ∀ (i : Nat) (x : SourceFile × FileEntry) (b : ChunkBitmap), offered[i]? = some x →
      [oneChunkHeld, .new 1][i]? = some b → b.Reachable ∧ b.count = x.1.layout.count := by
    intro i x b hx hb
    rw [hcount x (List.mem_of_getElem? hx)]
    rcases List.mem_cons.1 (List.mem_of_getElem? hb) with rfl | hb
    · exact ⟨.fromBytes (show ChunkBitmap.fromBytes [1] 1 = .ok oneChunkHeld from rfl), rfl⟩
    · obtain rfl := List.mem_singleton.1 hb
      exact ⟨.new 1, rfl⟩
  have hlen : [oneChunkHeld, .new 1].length = offered.length := by
    have hmapped := congrArg List.length hcounts
    rw [List.length_map] at hmapped
    exact hmapped.symm
  refine ⟨offered, hoffers, ⟨hqueue, ?_⟩, ?_, ?_⟩
  · obtain ⟨-, queue, bytes, hq, hfor⟩ := (work_queue_complements hoffers).1 _ hlen hfit
    cases hqueue.symm.trans hq
    exact hfor
  · rcases (work_queue_complements hoffers).2
      { acceptedFileIds := [1], progress := [⟨1, [0]⟩, ⟨1, [1]⟩] } with
      ⟨queue, bytes, hq, hfor⟩ | ⟨_, _, _, _, _, _, _, herror⟩
    · cases hqueue'.symm.trans hq
      exact hfor
    · cases hqueue'.symm.trans herror
  · rcases (work_queue_complements hoffers).2
      { acceptedFileIds := [0, 1], progress := [⟨0, []⟩] } with
      ⟨queue, bytes, hq, -⟩ | ⟨x, hx, -, p, e, hp, hparse, herror⟩
    · rw [hq] at hqueue''
      cases hqueue''
    · obtain rfl := List.mem_singleton.1 (List.mem_of_find?_eq_some hp)
      exact ⟨x, hx, e, hparse, herror⟩

end AetherLink
