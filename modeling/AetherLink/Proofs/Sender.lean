import AetherLink.Core.Transfer

set_option autoImplicit false

/-! # What the sender offers and says

The manifest has one entry per file, with the file's index for its id, so ids are distinct. Of the
control messages the sender writes `Hello` and then the offer, once each. -/

namespace AetherLink

open Bytes

/-! ## Ids -/

/-- Indices of a list that is not too long are told apart by their ids. -/
theorem ofNat_inj_of_lt {i j n : Nat} (hn : n < 2 ^ 64) (hi : i < n) (hj : j < n)
    (heq : UInt64.ofNat i = UInt64.ofNat j) : i = j := by
  have := congrArg UInt64.toNat heq
  rwa [UInt64.toNat_ofNat', UInt64.toNat_ofNat', Nat.mod_eq_of_lt (by omega),
    Nat.mod_eq_of_lt (by omega)] at this

/-! ## Sources -/

/-- A source and its entry are those of the `i`-th file. -/
structure OfferedAs (blake3 : Blake3) (chunkSize : UInt32) (f : OutgoingFile) (i : Nat)
    (x : SourceFile × FileEntry) : Prop where
  map_eq : x.1.map = f.data
  layout_ok : ChunkLayout.new (UInt64.ofNat f.data.length) chunkSize = .ok x.1.layout
  entry_eq : ∃ hashes, x.1.chunkHashes blake3 = .ok hashes ∧ x.2 = x.1.entry blake3 f hashes i

variable {blake3 : Blake3} {chunkSize : UInt32}

theorem openFile_ok {f : OutgoingFile} {io : SourceIo} {src : SourceFile}
    (h : SourceFile.openFile f chunkSize io = .ok src) :
    src.map = f.data ∧ ChunkLayout.new (UInt64.ofNat f.data.length) chunkSize = .ok src.layout := by
  unfold SourceFile.openFile at h
  split at h
  · cases h
  · split at h
    · cases h
    · split at h
      · cases h
      · next layout hlayout =>
          split at h
          · cases h
          · cases h
            exact ⟨rfl, hlayout⟩

theorem openSource_ok {f : OutgoingFile} {io : SourceIo} {i : Nat} {x : SourceFile × FileEntry}
    (h : openSource blake3 chunkSize f io i = .ok x) : OfferedAs blake3 chunkSize f i x := by
  unfold openSource at h
  split at h
  · cases h
  · next src hsrc =>
      split at h
      · cases h
      · next hashes hhashes =>
          cases h
          exact ⟨(openFile_ok hsrc).1, (openFile_ok hsrc).2, hashes, hhashes, rfl⟩

/-- **One source and one entry per file**, in order. -/
theorem openSources_ok {files : List OutgoingFile} {ios : List SourceIo} {i : Nat}
    {offered : List (SourceFile × FileEntry)} (hlen : ios.length = files.length)
    (h : openSources blake3 chunkSize (files.zip ios) i = .ok offered) :
    offered.length = files.length ∧ ∀ k f, files[k]? = some f →
      ∃ x, offered[k]? = some x ∧ OfferedAs blake3 chunkSize f (i + k) x := by
  induction files generalizing ios i offered with
  | nil =>
      rw [List.zip_nil_left, openSources] at h
      cases h
      exact ⟨rfl, by simp⟩
  | cons f files ih =>
      cases ios with
      | nil => cases hlen
      | cons io ios =>
          rw [List.zip_cons_cons, openSources] at h
          split at h
          · cases h
          · next x hx =>
              split at h
              · cases h
              · next xs hxs =>
                  cases h
                  obtain ⟨hlen', hall⟩ := ih (Nat.succ.inj hlen) hxs
                  refine ⟨by rw [List.length_cons, hlen', List.length_cons], fun k g hg => ?_⟩
                  cases k with
                  | zero =>
                      rw [List.getElem?_cons_zero, Option.some.injEq] at hg
                      subst hg
                      exact ⟨x, List.getElem?_cons_zero, openSource_ok hx⟩
                  | succ k =>
                      rw [List.getElem?_cons_succ] at hg ⊢
                      obtain ⟨y, hy, hyoff⟩ := hall k g hg
                      exact ⟨y, hy, by rwa [Nat.add_right_comm] at hyoff⟩

/-- A chunk that is there is cut out of its source. -/
theorem chunkOf_ok_iff {offered : List (SourceFile × FileEntry)} {item : WorkItem} {offset : Nat}
    {payload : List UInt8} :
    chunkOf offered item = .ok (offset, payload) ↔ ∃ x, offered[item.fileIndex]? = some x ∧
      item.chunkIndex < x.1.layout.count ∧ offset = x.1.layout.start item.chunkIndex ∧
      payload = slice x.1.map offset (x.1.layout.len item.chunkIndex) := by
  unfold chunkOf SourceFile.chunk
  cases offered[item.fileIndex]? with
  | none => simp
  | some x =>
      obtain ⟨src, entry⟩ := x
      simp only [Option.some.injEq, exists_eq_left']
      by_cases hi : item.chunkIndex < src.layout.count
      · simp only [src.layout.range_eq hi, Except.map, Except.ok.injEq, Prod.mk.injEq, hi, true_and]
        constructor
        · rintro ⟨rfl, rfl⟩
          exact ⟨rfl, rfl⟩
        · rintro ⟨rfl, rfl⟩
          exact ⟨rfl, rfl⟩
      · cases hr : src.layout.range item.chunkIndex with
        | error e => simp [hi]
        | ok r => exact absurd ((src.layout.range_ok_iff _ r).1 hr).1 hi

/-- The bytes of the chunk are there to be cut. -/
theorem SourceFile.length_chunk (src : SourceFile) {i : Nat} (hi : i < src.layout.count) :
    (slice src.map (src.layout.start i) (src.layout.len i)).length = src.layout.len i :=
  length_slice_of_le (src.size_eq ▸ src.layout.start_add_len_le hi)

/-- **The digests of a source**: one per chunk, over its bytes. -/
theorem SourceFile.chunkHashes_eq (blake3 : Blake3) (src : SourceFile) :
    src.chunkHashes blake3 = .ok ((List.range src.layout.count).map fun i =>
      hashChunk blake3 (slice src.map (src.layout.start i) (src.layout.len i))) := by
  have hmap : ∀ l : List Nat, (∀ i ∈ l, i < src.layout.count) →
      l.mapM (fun index => (src.chunk index).map (hashChunk blake3))
        = .ok (l.map fun i => hashChunk blake3
            (slice src.map (src.layout.start i) (src.layout.len i))) := by
    intro l hl
    induction l with
    | nil => rfl
    | cons i l ih =>
        have hi := hl i List.mem_cons_self
        have hchunk : (src.chunk i).map (hashChunk blake3)
            = .ok (hashChunk blake3 (slice src.map (src.layout.start i) (src.layout.len i))) := by
          rw [SourceFile.chunk, src.layout.range_eq hi]
          rfl
        rw [List.mapM_cons, hchunk, ih fun j hj => hl j (List.mem_cons_of_mem _ hj)]
        rfl
  exact hmap _ fun i hi => List.mem_range.1 hi

/-- The sources and entries the sender's files can be offered as. -/
def Parties.Offers (c : Parties) (offered : List (SourceFile × FileEntry)) : Prop :=
  ∃ ios : List SourceIo, ios.length = c.files.length ∧
    openSources c.blake3 c.senderConfig.chunkSize (c.files.zip ios) 0 = .ok offered

namespace Parties.Offers

variable {c : Parties} {offered : List (SourceFile × FileEntry)}

theorem length_eq (h : c.Offers offered) : offered.length = c.files.length := by
  obtain ⟨ios, hlen, hopen⟩ := h
  exact (openSources_ok hlen hopen).1

theorem of_file (h : c.Offers offered) {i : Nat} {f : OutgoingFile} (hf : c.files[i]? = some f) :
    ∃ x, offered[i]? = some x ∧ OfferedAs c.blake3 c.senderConfig.chunkSize f i x := by
  obtain ⟨ios, hlen, hopen⟩ := h
  obtain ⟨x, hx, hoff⟩ := (openSources_ok hlen hopen).2 i f hf
  exact ⟨x, hx, by rwa [Nat.zero_add] at hoff⟩

/-- What is offered is offered for a file. -/
theorem of_offered (h : c.Offers offered) {i : Nat} {x : SourceFile × FileEntry}
    (hx : offered[i]? = some x) :
    ∃ f, c.files[i]? = some f ∧ OfferedAs c.blake3 c.senderConfig.chunkSize f i x := by
  obtain ⟨hi, -⟩ := List.getElem?_eq_some_iff.1 hx
  have hi' : i < c.files.length := h.length_eq ▸ hi
  obtain ⟨y, hy, hoff⟩ := h.of_file (List.getElem?_eq_getElem hi')
  obtain rfl := Option.some.inj (hx.symm.trans hy)
  exact ⟨_, List.getElem?_eq_getElem hi', hoff⟩

theorem fileId_eq (h : c.Offers offered) {i : Nat} {x : SourceFile × FileEntry}
    (hx : offered[i]? = some x) : x.2.fileId = UInt64.ofNat i := by
  obtain ⟨f, -, hoff⟩ := h.of_offered hx
  obtain ⟨hashes, -, heq⟩ := hoff.entry_eq
  rw [heq, SourceFile.entry]

/-- The ids of the files are apart. -/
theorem length_lt (h : c.Offers offered) : offered.length < 2 ^ 64 :=
  h.length_eq ▸ c.files_length_lt

/-- **Ids are distinct.** -/
theorem nodup_ids (h : c.Offers offered) : (offered.map fun x => x.2.fileId).Nodup := by
  rw [List.nodup_iff_getElem?_ne_getElem?]
  intro i j hij hj heq
  rw [List.length_map] at hj
  rw [List.getElem?_map, List.getElem?_map, List.getElem?_eq_getElem hj,
    List.getElem?_eq_getElem (by omega), Option.map_some, Option.map_some, Option.some.injEq,
    h.fileId_eq (List.getElem?_eq_getElem (by omega)),
    h.fileId_eq (List.getElem?_eq_getElem hj)] at heq
  exact absurd (ofNat_inj_of_lt h.length_lt (by omega) hj heq) (by omega)

end Parties.Offers

/-! ## What the sender has said -/

/-- The sender's first message. -/
def Parties.helloBody (c : Parties) : Body :=
  .hello PROTOCOL_VERSION.toUInt32 c.senderConfig.streamCount.toUInt32

/-- Its second. -/
def Parties.offerBody (c : Parties) (offered : List (SourceFile × FileEntry)) : Body :=
  .offer { chunkSize := c.senderConfig.chunkSize, files := offered.map Prod.snd }

/-- What the sender has said, by where it is. -/
structure Sender.Spoken (c : Parties) (s : Sender) : Prop where
  silent : s.main = .opening ∨ s.main = .greeting → s.messages = []
  greeted : s.main = .offering → s.messages = [c.helloBody]
  said : s.messages <+: [c.helloBody, c.offerBody s.offered]
  offered : s.main = .greeting ∨ s.messages ≠ [] → c.Offers s.offered

theorem Sender.spoken_init (c : Parties) : Sender.init.Spoken c :=
  ⟨fun _ => rfl, fun h => by simp [init] at h, List.nil_prefix, fun h => by simp [init] at h⟩

variable {c : Parties} {s s' : Sender}

/-- A step of `run` that writes nothing and is past the opening. -/
theorem Sender.Spoken.move_on (h : s.Spoken c) (hoffered : s'.offered = s.offered)
    (hmessages : s'.messages = s.messages)
    (hmain : s'.main ≠ .opening ∧ s'.main ≠ .greeting ∧ s'.main ≠ .offering) : s'.Spoken c := by
  refine ⟨fun hm => ?_, fun hm => absurd hm hmain.2.2, ?_, fun hm => ?_⟩
  · rcases hm with hm | hm
    · exact absurd hm hmain.1
    · exact absurd hm hmain.2.1
  · rw [hmessages, hoffered]
    exact h.said
  · rw [hoffered]
    rcases hm with hm | hm
    · exact absurd hm hmain.2.1
    · exact h.offered (Or.inr (hmessages ▸ hm))

/-- What the receiver can read of the sender. -/
theorem Sender.Spoken.message (h : s.Spoken c) {i : Nat} {body : Body}
    (hbody : s.messages[i]? = some body) :
    [c.helloBody, c.offerBody s.offered][i]? = some body := by
  obtain ⟨rest, hrest⟩ := h.said
  rw [← hrest, List.getElem?_append_left (List.getElem?_eq_some_iff.1 hbody).1, hbody]

theorem Sender.mainStep_spoken {act : Act}
    (hstep : s.mainStep c.blake3 c.senderConfig c.files act = some s') (h : s.Spoken c) :
    s'.Spoken c := by
  cases mainStep_moves hstep with
  | @opened ios offered hmain hlen hoffered =>
      have hsilent := h.silent (Or.inl hmain)
      refine ⟨fun _ => hsilent, by simp, ?_, fun _ => ⟨ios, hlen, hoffered⟩⟩
      rw [hsilent]
      exact List.nil_prefix
  | greets hmain =>
      have hsilent := h.silent (Or.inr hmain)
      refine ⟨by simp, fun _ => ?_, ?_, fun _ => h.offered (Or.inl hmain)⟩
      · simp only [hsilent, List.nil_append, Parties.helloBody]
      · simp only [hsilent, List.nil_append]
        exact ⟨[c.offerBody s.offered], rfl⟩
  | offers hmain =>
      have hgreeted := h.greeted hmain
      refine ⟨by simp, by simp, ?_, fun _ => h.offered (Or.inr ?_)⟩
      · simp only [hgreeted]
        exact List.prefix_refl _
      · rw [hgreeted]
        simp
  | _ => exact h.move_on rfl rfl (by simp)

/-- Once something has been said, the offer is settled. -/
theorem Sender.mainStep_settled {act : Act}
    (hstep : s.mainStep c.blake3 c.senderConfig c.files act = some s') (h : s.Spoken c)
    (hsaid : s.messages ≠ []) : s'.offered = s.offered ∧ s.messages <+: s'.messages := by
  cases mainStep_moves hstep with
  | opened hmain hlen hoffered => exact absurd (h.silent (Or.inl hmain)) hsaid
  | greets hmain | offers hmain => exact ⟨rfl, List.prefix_append _ _⟩
  | _ => exact ⟨rfl, List.prefix_refl _⟩

end AetherLink
