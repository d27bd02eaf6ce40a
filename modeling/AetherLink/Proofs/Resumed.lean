import AetherLink.Proofs.Steady
import AetherLink.Proofs.Liveness

set_option autoImplicit false

/-! # Picking up where it stopped

A device that has received part of a file, and was stopped or lost power since, is offered the file
again. The offer loop believes the record (`OfferState.Believes`) or, where there is none, finds by
hashing exactly the chunks that are there (`Resume.rebuildByVerification_exact`). What has been
recorded is then not sent again, and the rest of the transfer gets done. -/

namespace AetherLink

open Bytes Storage

/-! ## What hashing finds -/

namespace Resume

variable {blake3 : Blake3} {fs : FileSystem} {sink : SinkFile} {hs : List Hash}
  {readable : Nat → Bool}

/-- One turn of the loop adds the bit of its own chunk, if that verifies. -/
theorem has_of_rebuildStep {b b' : ChunkBitmap} {i : Nat} (hwf : b.Wf)
    (h : rebuildStep blake3 fs sink hs readable b i = .ok b') (j : Nat) :
    b'.has j = true ↔ b.has j = true ∨
      (j = i ∧ readable i = true ∧ ChunkHeld blake3 sink.layout hs (fs.data sink.ino) i) := by
  rcases rebuildStep_ok h with ⟨hset, hheld⟩ | ⟨rfl, hnot⟩
  · rw [ChunkBitmap.has_of_set hwf hset, Bool.or_eq_true, decide_eq_true_eq]
    tauto
  · tauto

/-- The loop over any indices adds the bits of those that verify. -/
theorem has_of_rebuild {is : List Nat} {b b' : ChunkBitmap} (hb : Rebuilt blake3 fs sink hs b)
    (h : is.foldlM (rebuildStep blake3 fs sink hs readable) b = .ok b') (j : Nat) :
    b'.has j = true ↔ b.has j = true ∨
      (j ∈ is ∧ readable j = true ∧ ChunkHeld blake3 sink.layout hs (fs.data sink.ino) j) := by
  induction is generalizing b with
  | nil =>
      obtain rfl := Except.ok.inj h
      simp
  | cons i is ih =>
      rw [List.foldlM_cons] at h
      cases hstep : rebuildStep blake3 fs sink hs readable b i with
      | error e =>
          rw [hstep] at h
          cases h
      | ok b₁ =>
          rw [hstep] at h
          rw [ih (hb.step hstep) h, has_of_rebuildStep hb.wf hstep, List.mem_cons, or_assoc]
          refine or_congr_right ⟨?_, ?_⟩
          · rintro (⟨rfl, hj⟩ | ⟨hmem, hj⟩)
            · exact ⟨Or.inl rfl, hj⟩
            · exact ⟨Or.inr hmem, hj⟩
          · rintro ⟨rfl | hmem, hj⟩
            · exact Or.inl ⟨rfl, hj⟩
            · exact Or.inr ⟨hmem, hj⟩

/-- **Rebuilding finds exactly what is there**: over one digest for each chunk it always ends with a
    bitmap of the layout's size, and a bit is set exactly if the chunk could be read and its bytes hash
    to its digest. -/
theorem rebuildByVerification_exact (blake3 : Blake3) (fs : FileSystem) (sink : SinkFile)
    (hs : List Hash) (readable : Nat → Bool) (hlen : hs.length = sink.layout.count) :
    ∃ b, rebuildByVerification blake3 fs sink hs readable = .ok b ∧ b.Wf ∧
      b.count = sink.layout.count ∧ ∀ i, b.has i = true ↔
        readable i = true ∧ ChunkHeld blake3 sink.layout hs (fs.data sink.ino) i := by
  obtain ⟨b, hb⟩ : ∃ b, rebuildByVerification blake3 fs sink hs readable = .ok b :=
    exists_rebuildByVerification fs readable hlen
  have hrebuilt := rebuildByVerification_ok hb
  have hstart : Rebuilt blake3 fs sink hs (ChunkBitmap.new sink.layout.count) :=
    ⟨ChunkBitmap.wf_new _, rfl, truthful_new _ _ _ _⟩
  refine ⟨b, hb, hrebuilt.wf, hrebuilt.count_eq, fun i => ?_⟩
  rw [has_of_rebuild hstart hb i, ChunkBitmap.has_new]
  constructor
  · rintro (hfalse | ⟨-, hi⟩)
    · cases hfalse
    · exact hi
  · intro hi
    exact Or.inr ⟨List.mem_range.2 hi.2.lt_count, hi⟩

/-- `out/a`, open. -/
def sinkA : SinkFile :=
  { path := ["out", "a"], ino := 0, layout := oneByteLayout }

/-- The byte of `out/a` is found if it can be read. -/
theorem rebuildByVerification_exact_stagedA :
    (∃ b, rebuildByVerification shortFileHash stagedA sinkA [digestA] (fun _ => true) = .ok b ∧
      b.has 0 = true) ∧
    ∃ b, rebuildByVerification shortFileHash stagedA sinkA [digestA] (fun _ => false) = .ok b ∧
      b.has 0 = false := by
  constructor
  · obtain ⟨b, hb, -, -, hbits⟩ :=
      rebuildByVerification_exact shortFileHash stagedA sinkA [digestA] (fun _ => true) rfl
    exact ⟨b, hb, (hbits 0).2 ⟨rfl, by decide +kernel⟩⟩
  · obtain ⟨b, hb, -, -, hbits⟩ :=
      rebuildByVerification_exact shortFileHash stagedA sinkA [digestA] (fun _ => false) rfl
    exact ⟨b, hb, Bool.eq_false_iff.2 fun hbit => absurd ((hbits 0).1 hbit).1 (by decide)⟩

end Resume

/-! ## What the record brings -/

/-- What the loop keeps of the record that the disk `d` has of `dest`: the record itself, and every
    bit of it in the bitmap of `dest`, if that is among the entries. -/
structure OfferState.Believes (blake3 : Blake3) (key : StateKey) (dest : FilePath) (d : FileSystem)
    (st : OfferState) : Prop where
  untouched : st.disk.contents (statePath dest) = d.contents (statePath dest)
  bits : ∀ id fs, st.files.lookup id = some fs → fs.sink.path = dest →
    ∀ i, recordedBit blake3 d dest key i = true → fs.bitmap.has i = true

section Offer

variable {blake3 : Blake3} {key : StateKey} {l : ChunkLayout} {hs : List Hash}
  (hkey : key.Commits blake3 l hs) {dest : FilePath} {o : Offering}
  (ho : o.Steady blake3 dest key) (hresume : o.config.resume = true) {d : FileSystem}
  (hrec : RecordLasts blake3 key l hs dest d)
include hkey ho hresume hrec

/-- **An entry of the file starts with what is recorded of it**: the sizing has given the staging file
    the recorded length, so the record is loaded. -/
theorem OfferState.Believes.step {x : FileEntry × EntryIo} (hx : x ∈ o.entries)
    (hread : x.2.recordReadable = true) {st st' : OfferState} {pre : List (FileEntry × EntryIo)}
    (h : st.Believes blake3 key dest d) (hacc : Accepted blake3 o.outputDir o.chunkSize pre st)
    (hentry : offerEntry blake3 o.config o.outputDir o.chunkSize st x = .ok st') :
    st'.Believes blake3 key dest d := by
  unfold offerEntry at hentry
  split at hentry
  · cases hentry
  next c hcheck =>
  obtain ⟨hfor, -⟩ := checkEntry_ok hcheck
  obtain ⟨sink, bitmap, hsink, hbitmap, hlookup⟩ := hacc.opens hcheck hentry
  have huntouched : st'.disk.contents (statePath dest) = d.contents (statePath dest) := by
    rw [← h.untouched]
    exact hsink.contents_of_ne (ho.names x hx c.dest hfor.dest_entry).1.symm
  refine ⟨huntouched, fun id fs hfs hpath i hbit => ?_⟩
  rcases hlookup id fs hfs with ⟨rfl, hdest⟩ | ⟨hold, -⟩
  swap
  · exact h.bits id fs hold hpath i hbit
  obtain rfl : c.dest = dest := hdest.symm.trans hpath
  have hown := ho.own x hx c hfor rfl
  subst hown
  -- the record there is
  obtain ⟨raw, hraw, -⟩ := (Option.any_eq_true _ _).1 hbit
  obtain ⟨ino, hino, rfl⟩ := Disk.contents_eq_some hraw
  obtain ⟨-, b, hdata, hwf, hcount, -⟩ := hrec ino hino
  have hcontents := hraw
  rw [hdata] at hcontents
  have hset := ((recordedBit_iff hwf (hcount ▸ l.count_lt) hcontents).1 hbit).2
  have hlt : i < l.count := hcount ▸ hwf.lt_count hset
  rw [← huntouched] at hcontents
  have hsize : c.key.fileSize = x.1.sizeBytes := by rw [hfor.key_eq]
  rcases initialBitmap_cases hbitmap with ⟨-, -, hloaded⟩ | ⟨hnone, -⟩
  · obtain ⟨-, rfl, -⟩ := (Resume.load_of_record hwf (hcount ▸ l.count_lt) hcontents).1 hloaded
    exact hset
  · -- a recorded chunk makes the size positive, so the sizing has set the length
    have hpos := l.start_lt hlt
    rw [(ChunkLayout.new_ok hkey.layout_ok).1] at hpos
    have hlen : (sized (st.disk.contents c.dest |>.getD []) x.1.sizeBytes.toNat).length
        = c.key.fileSize.toNat := by
      rw [← hsize, sized, if_neg (by omega), length_setLen]
    have hsome := (Resume.load_of_record hwf (hcount ▸ l.count_lt) hcontents).2
      ⟨rfl, rfl, _, hsink.contents, hlen⟩
    rw [hnone hresume hread] at hsome
    cases hsome

/-- **What the loop has made of the record** once it has accepted the whole offer. -/
theorem Offering.Steady.believes (hread : ∀ x ∈ o.entries, x.2.recordReadable = true)
    {st : OfferState} (hst : o.answer blake3 d = .ok st) : st.Believes blake3 key dest d := by
  have hloop : ∀ (pre : List (FileEntry × EntryIo)) (st : OfferState), (∀ x ∈ pre, x ∈ o.entries) →
      offerLoop blake3 o.config o.outputDir o.chunkSize (.init d) pre = .ok st →
        st.Believes blake3 key dest d := by
    intro pre
    induction pre using List.reverseRecOn with
    | nil =>
        intro st _ hpre
        obtain rfl := Except.ok.inj hpre
        exact ⟨rfl, nofun⟩
    | append_singleton pre x ih =>
        intro st hsub hpre
        obtain ⟨s, c, hloop, hcheck, hopen⟩ := offerLoop_concat hpre
        have hx := hsub x (List.mem_append_right _ (List.mem_singleton.2 rfl))
        have hbefore := ih s (fun y hy => hsub y (List.mem_append_left _ hy)) hloop
        refine hbefore.step hkey ho hresume hrec hx (hread x hx) (accepted_offerLoop hloop) ?_
        rw [offerEntry, hcheck]
        exact hopen
  exact hloop _ st (fun x hx => hx) hst

end Offer

/-! ## An offer that has been made before -/

theorem Checked.For.unique {blake3 : Blake3} {config config' : Config} {outputDir : FilePath}
    {chunkSize : UInt32} {entry : FileEntry} {ch ch' : Checked}
    (h : ch.For blake3 config outputDir chunkSize entry)
    (h' : ch'.For blake3 config' outputDir chunkSize entry) : ch = ch' := by
  have hpath := Except.ok.inj (h.sanitized.symm.trans h'.sanitized)
  have hlayout := Except.ok.inj (h.layout_ok.symm.trans h'.layout_ok)
  have hhashes := h.hashes_ok
  rw [hlayout, h'.hashes_ok] at hhashes
  have hsame := (Except.ok.inj hhashes).symm
  have hdest := h.dest_eq
  have hkey := h.key_eq
  rw [hpath, ← h'.dest_eq] at hdest
  rw [hsame, ← h'.key_eq] at hkey
  cases ch
  cases ch'
  simp only [Checked.mk.injEq]
  exact ⟨hpath, hdest, hlayout, hsame, hkey⟩

/-- The state that serves an entry goes by what the checks have found. -/
theorem FileState.Serves.checked {blake3 : Blake3} {config : Config} {outputDir : FilePath}
    {chunkSize : UInt32} {entry : FileEntry} {fs : FileState} {ch : Checked}
    (h : fs.Serves blake3 outputDir chunkSize entry)
    (hfor : ch.For blake3 config outputDir chunkSize entry) :
    fs.sink.path = ch.dest ∧ fs.layout = ch.layout ∧ fs.chunkHashes = ch.chunkHashes := by
  obtain ⟨safePath, hsan, hpath⟩ := h.path
  obtain rfl := Except.ok.inj (hsan.symm.trans hfor.sanitized)
  have hlayout := Except.ok.inj (h.layout_ok.symm.trans hfor.layout_ok)
  have hhashes := h.hashes_ok
  rw [hlayout, hfor.hashes_ok] at hhashes
  exact ⟨hpath.trans hfor.dest_eq.symm, hlayout, (Except.ok.inj hhashes).symm⟩

/-- Every accepted entry has passed the checks. -/
theorem exists_checked {blake3 : Blake3} {config : Config} {outputDir : FilePath}
    {chunkSize : UInt32} {disk : FileSystem} {xs : List (FileEntry × EntryIo)} {st : OfferState}
    (h : offerLoop blake3 config outputDir chunkSize (.init disk) xs = .ok st) :
    ∀ x ∈ xs, ∃ ch : Checked, ch.For blake3 config outputDir chunkSize x.1 := by
  refine offerLoop_induct (P := fun xs _ => ∀ x ∈ xs,
    ∃ ch : Checked, ch.For blake3 config outputDir chunkSize x.1) nofun ?_ h
  intro pre x s ch s' hpre hcheck hopen y hy
  rcases List.mem_append.1 hy with hy | hy
  · exact hpre y hy
  · obtain rfl := List.mem_singleton.1 hy
    exact ⟨ch, (checkEntry_ok hcheck).1⟩

/-- The offer, as the receiver goes over it. -/
def Parties.offering (c : Parties) (offered : List (SourceFile × FileEntry)) (ios : List EntryIo) :
    Offering where
  config := c.receiverConfig
  outputDir := c.outputDir
  chunkSize := c.senderConfig.chunkSize
  entries := (offered.map Prod.snd).zip ios
  streamCount := c.senderConfig.streamCount.toUInt32

/-- The checks let the entry pass as `ch`. -/
def Parties.Checks (c : Parties) (entry : FileEntry) (ch : Checked) : Prop :=
  ch.For c.blake3 c.receiverConfig c.outputDir c.senderConfig.chunkSize entry

/-- The receiver's disk has come about from `start` by `as`: any sessions of any senders, stopped and
    cut off from power at any point. At the start there was no record of the files that are offered,
    and since then each of them has always been offered as it is offered now. -/
structure Parties.Continues (c : Parties) (T : Set Hash) (start : FileSystem) (as : List DeviceAct)
    (offered : List (SourceFile × FileEntry)) : Prop where
  ran : ∃ w, (Device.idle start).runs c.blake3 as = some w ∧ w.disk = c.disk
  fresh : ∀ x ∈ offered, ∀ ch, c.Checks x.2 ch → start.contents (statePath ch.dest) = none
  steady : ∀ x ∈ offered, ∀ ch, c.Checks x.2 ch → ∀ a ∈ as, a.Steady c.blake3 ch.dest ch.key
  digests : ∀ x ∈ offered, ∀ ch, c.Checks x.2 ch →
    ch.key.rootHash ∈ T ∧ ∀ h ∈ ch.chunkHashes, h ∈ T

section Offering

variable {c : Parties} {offered : List (SourceFile × FileEntry)} {ios : List EntryIo}
  {st : OfferState} (hst : (c.offering offered ios).answer c.blake3 c.disk = .ok st)
include hst

/-- **An accepted offer is steady for each of its files**: no other entry has its destination. -/
theorem Parties.steady_offering
    (hapart : EntriesApart c.outputDir (c.offering offered ios).entries)
    {x : FileEntry × EntryIo} (hx : x ∈ (c.offering offered ios).entries) {ch : Checked}
    (hch : c.Checks x.1 ch) : (c.offering offered ios).Steady c.blake3 ch.dest ch.key := by
  refine ⟨hapart, fun y hy d hd => ?_, fun y hy ch' hch' hdest => ?_⟩
  · exact ⟨(hapart x hx y hy _ hch.dest_entry d hd).1, hapart y hy x hx d hd _ hch.dest_entry⟩
  · have hsame : y = x := by
      refine (accepted_offerLoop hst).eq_of_sanitize_eq hy hx ?_
      rw [hch'.sanitized, hch.sanitized]
      have hpath := hch'.dest_eq.symm.trans (hdest.trans hch.dest_eq)
      rw [dest_inj hpath]
    subst hsame
    rw [hch'.unique hch]

variable {T : Set Hash} (hcf : CollisionFreeOn c.blake3 T) {start : FileSystem}
  {as : List DeviceAct} (hcont : c.Continues T start as offered)
  (hapart : EntriesApart c.outputDir (c.offering offered ios).entries)
include hcf hcont hapart

/-- **What a device that has gone on from `start` has of a file that is offered again**: the bitmap
    the offer loop gives it is true of its bytes, and has what is recorded. -/
theorem Parties.Continues.file {x : SourceFile × FileEntry} (hx : x ∈ offered) {ch : Checked}
    (hch : c.Checks x.2 ch) (hmem : ∃ y ∈ (c.offering offered ios).entries, y.1 = x.2) :
    st.Keeps c.blake3 ch.key ch.layout ch.chunkHashes ch.dest ∧
      (c.receiverConfig.resume = true → (∀ io ∈ ios, io.recordReadable = true) →
        st.Believes c.blake3 ch.key ch.dest c.disk) := by
  obtain ⟨y, hy, hyx⟩ := hmem
  obtain ⟨hroot, hhashes⟩ := hcont.digests x hx ch hch
  obtain ⟨w, hw, hdisk⟩ := hcont.ran
  have hsteady := Parties.steady_offering hst hapart hy (show c.Checks y.1 ch from hyx ▸ hch)
  have hstart : (Device.idle start).Keeps c.blake3 ch.key ch.layout ch.chunkHashes ch.dest :=
    RecordLasts.of_none (hcont.fresh x hx ch hch)
  obtain ⟨hkeeps, -⟩ := hstart.runs hcf hch.commits hroot hhashes hch.named
    (hcont.steady x hx ch hch) hw
  have hrec := hkeeps.record
  rw [hdisk] at hrec
  refine ⟨(hsteady.keeps hcf hch.commits hroot hhashes hrec hst fun y hy => hy).1,
    fun hresume hread => hsteady.believes hch.commits hresume hrec (fun y hy => ?_) hst⟩
  exact hread _ (List.of_mem_zip hy).2

end Offering

/-! ## The transfer -/

namespace Transfer

variable {c : Parties} {t t₀ : Transfer} {as : List TransferAct}

/-- What the receiver has gone over when it has written `Accept`. -/
theorem offer_accepted (hrun : Transfer.init.runs c as = some t) {ios : List EntryIo}
    (hstep : t.step c (.offer ios true) = some t₀) {accept : ManifestAccept} {totalBytes : UInt64}
    {s₀ : Session} (hreceiver : t₀.receiver = .running accept totalBytes s₀) :
    c.Offers t.sender.offered ∧
      ((c.offering t.sender.offered ios).entries.map Prod.fst = t.sender.offered.map Prod.snd) ∧
      ∃ st, (c.offering t.sender.offered ios).answer c.blake3 c.disk = .ok st ∧
        s₀ = Session.start st c.senderConfig.streamCount.toUInt32 := by
  have htied := tied_of_runs hrun
  cases step_moves hstep with
  | @offer ios written streamCount body hbefore hbody hios =>
      obtain ⟨rfl, hne⟩ := htied.awaiting _ hbefore
      obtain rfl := Option.some.inj (htied.spoken.message hbody)
      have hoffers := htied.spoken.offered (Or.inr hne)
      simp only [Receiver.onOffer, Parties.offerBody] at hreceiver
      split at hreceiver
      · cases hreceiver
      · next st hst =>
          simp only [if_true, Receiver.running.injEq] at hreceiver
          refine ⟨hoffers, List.map_fst_zip ?_, st, hst, hreceiver.2.2.symm⟩
          rw [List.length_map, hoffers.length_eq, hios]

/-- The transfer goes on from what the receiver has recorded: a recorded chunk is not missing, so it
    is not sent, and in whatever order the two ends go on, everything else gets done. -/
structure PicksUp (c : Parties) (offered : List (SourceFile × FileEntry))
    (bitmaps : List ChunkBitmap) (s₀ : Session) (t₀ : Transfer) : Prop where
  agreed : t₀.Agreed c offered bitmaps s₀
  recorded : ∀ (i k : Nat) x ch, offered[i]? = some x → c.Checks x.2 ch →
    recordedBit c.blake3 c.disk ch.dest ch.key k = true → missing bitmaps ⟨i, k⟩ = false
  done : ∀ bs t, (∀ b ∈ bs, b.honest = true) → t₀.runs c bs = some t →
    t.GetsDone c offered bitmaps s₀

/-- **A transfer picks up where an earlier one stopped.** The receiver's device had no record of the
    files and has been through any sessions since, one after the other, each stopped or cut off from
    power at any point, in which the files of the offer were always offered as they are now. Where it
    accepts the offer, with `resume` on, its records readable, the names of the entries apart and room
    for the records, what it has recorded is not sent again, and while no call fails and no stream is
    cut the rest gets done, whatever the order of the steps. The sender has at least one stream, and
    frames that are neither empty nor longer than `MAX_FRAME_PAYLOAD`. -/
theorem interrupted_transfer_resumes (hpos : 0 < c.senderConfig.frameSize.toNat)
    (hmax : c.senderConfig.frameSize.toNat ≤ MAX_FRAME_PAYLOAD)
    (hstreams : 0 < c.senderConfig.streamCount.toNat) {T : Set Hash}
    (hcf : CollisionFreeOn c.blake3 T) {start : FileSystem} {before : List DeviceAct}
    (hrun : Transfer.init.runs c as = some t) (hmain : t.sender.main = .awaitingAccept)
    (hcont : c.Continues T start before t.sender.offered) {ios : List EntryIo}
    (hapart : EntriesApart c.outputDir (c.offering t.sender.offered ios).entries)
    (hresume : c.receiverConfig.resume = true) (hread : ∀ io ∈ ios, io.recordReadable = true)
    (hstep : t.step c (.offer ios true) = some t₀) {accept : ManifestAccept} {totalBytes : UInt64}
    {s₀ : Session} (hreceiver : t₀.receiver = .running accept totalBytes s₀)
    (hroom : s₀.Recordable) : ∃ bitmaps, t₀.PicksUp c t.sender.offered bitmaps s₀ := by
  obtain ⟨hoffers, hentries, st, hst, rfl⟩ := offer_accepted hrun hstep hreceiver
  have hacc := accepted_offerLoop hst
  have hmade : ∀ x ∈ t.sender.offered, ∃ y ∈ (c.offering t.sender.offered ios).entries,
      y.1 = x.2 := by
    intro x hx
    have hmem := List.mem_map_of_mem (f := Prod.snd) hx
    rw [← hentries] at hmem
    exact List.mem_map.1 hmem
  -- every state of the map is of an offered file, with its checks
  have hof : ∀ id fs, st.files.lookup id = some fs → ∃ x ∈ t.sender.offered, x.2.fileId = id ∧
      ∃ ch, c.Checks x.2 ch ∧ fs.sink.path = ch.dest ∧ fs.layout = ch.layout ∧
        fs.chunkHashes = ch.chunkHashes := by
    intro id fs hfs
    obtain ⟨y, hy, hid, hserves⟩ := hacc.made id fs hfs
    obtain ⟨ch, hch⟩ := exists_checked hst y hy
    have hmem : y.1 ∈ t.sender.offered.map Prod.snd := hentries ▸ List.mem_map_of_mem hy
    obtain ⟨x, hx, hxy⟩ := List.mem_map.1 hmem
    exact ⟨x, hx, hxy ▸ hid, ch, hxy ▸ hch, hserves.checked hch⟩
  have hbitmap : ∀ id fs, st.files.lookup id = some fs → fs.bitmap.Wf ∧
      fs.bitmap.count = fs.layout.count ∧
      Truthful c.blake3 fs.layout fs.chunkHashes (st.disk.data fs.sink.ino) fs.bitmap := by
    intro id fs hfs
    obtain ⟨x, hx, -, ch, hch, hpath, hlayout, hhashes⟩ := hof id fs hfs
    rw [hlayout, hhashes]
    exact (hcont.file hst hcf hapart hx hch (hmade x hx)).1.bitmap id fs hfs hpath
  obtain ⟨bitmaps, hagreed⟩ := agreed_of_offer hrun hmain hstep hreceiver
    (hacc.namesApart hapart) (fun id fs hfs => ⟨(hbitmap id fs hfs).1, (hbitmap id fs hfs).2.1⟩) <| by
      -- a chunk that is held has the source's digest, so the source's bytes
      intro i x fs k hx hfs hbit
      obtain ⟨f, -, hoff⟩ := hoffers.of_offered hx
      obtain ⟨y, hy, hyx⟩ := hmade x (List.mem_of_getElem? hx)
      have hids : ((c.offering t.sender.offered ios).entries.map fun y => y.1.fileId).Nodup := by
        have hmap := congrArg (List.map fun e : FileEntry => e.fileId) hentries
        rw [List.map_map, List.map_map] at hmap
        exact hmap ▸ hoffers.nodup_ids
      obtain ⟨fs', hfs', hserves⟩ := hacc.kept hids y hy
      rw [hyx] at hfs' hserves
      obtain rfl := Option.some.inj (hfs.symm.trans hfs')
      obtain ⟨x', hx', -, ch, hch, -, -, hhashes⟩ := hof _ fs hfs
      obtain ⟨-, -, hdigest⟩ := (chunkHeld_iff _ k).1 ((hbitmap _ fs hfs).2.2 k hbit)
      have hmemT := (hcont.digests x' hx' ch hch).2 _ (hhashes ▸ List.mem_of_getElem? hdigest)
      have hlt := ((hbitmap _ fs hfs).2.2 k hbit).lt_count
      rw [hoff.layout_eq hserves] at hlt
      rw [hoff.chunkHashes_eq hserves, List.getElem?_map, List.getElem?_range hlt] at hdigest
      rw [hoff.layout_eq hserves]
      rw [hoff.layout_eq hserves] at hdigest hmemT
      exact hcf _ _ (Option.some.inj hdigest).symm hmemT
  refine ⟨bitmaps, hagreed, fun i k x ch hx hch hbit => ?_, fun bs t' hhonest hruns => ?_⟩
  · obtain ⟨b, fs, hb, hfs, hserves, rfl⟩ := hagreed.ready.file hoffers hx
    obtain ⟨hpath, -, -⟩ := hserves.checked hch
    have hbelieves := (hcont.file hst hcf hapart (List.mem_of_getElem? hx) hch
      (hmade x (List.mem_of_getElem? hx))).2 hresume hread
    have hset := hbelieves.bits _ fs hfs hpath k hbit
    cases hmissing : missing bitmaps ⟨i, k⟩ with
    | false => rfl
    | true =>
        obtain ⟨b, hb', -, hclear⟩ := missing_iff.1 hmissing
        obtain rfl := Option.some.inj (hb.symm.trans hb')
        rw [hset] at hclear
        cases hclear
  · have hstart : Underway c t.sender.offered bitmaps t₀
        (Session.start st c.senderConfig.streamCount.toUInt32) t₀ := Or.inl rfl
    have hunderway := hstart.of_runs hpos hmax hstreams hagreed rfl hroom hhonest hruns
    exact hunderway.getsDone hpos hmax hstreams hagreed rfl hroom

end Transfer

/-- The same parties later, with the disk there is by then. -/
def oneByteAgain (disk : FileSystem) : Parties :=
  { oneByteParties with disk := disk }

/-- What the checks find out about the one byte. -/
theorem for_oneByteA : Checked.For shortFileHash plainConfig ["out"] 65536
    (oneByteEntry 0 "a" rootA digestA) ⟨"a", ["out", "a"], oneByteLayout, [digestA], keyA⟩ :=
  (checkEntry_ok (checkEntry_oneByteA 0 ["out"] (by decide +kernel))).1

theorem singleOffering_steady : singleOffering.Steady shortFileHash ["out", "a"] keyA := by
  refine ⟨entriesApart_singleton _ _, fun x hx d hd => ?_, fun x hx ch hch hdest => ?_⟩
  · obtain rfl := List.mem_singleton.1 hx
    have hsame : some d = some ["out", "a"] := hd.symm.trans (by decide +kernel)
    obtain rfl := Option.some.inj hsame
    decide +kernel
  · obtain rfl := List.mem_singleton.1 hx
    rw [hch.unique for_oneByteA]

theorem recordedThenCut_steady :
    ∀ a ∈ recordedThenCut, a.Steady shortFileHash ["out", "a"] keyA := by
  intro a ha
  rw [recordedThenCut, List.append_assoc] at ha
  rcases List.mem_append.1 ha with ha | ha
  · obtain rfl := List.mem_singleton.1 ha
    exact singleOffering_steady
  rcases List.mem_append.1 ha with ha | ha
  · obtain ⟨b, -, rfl⟩ := List.mem_map.1 ha
    trivial
  · obtain rfl := List.mem_singleton.1 ha
    trivial

theorem checks_oneByteA (disk : FileSystem) : (oneByteAgain disk).Checks
    (oneByteEntry 0 "a" rootA digestA) ⟨"a", ["out", "a"], oneByteLayout, [digestA], keyA⟩ :=
  ⟨for_oneByteA.sanitized, for_oneByteA.dest_eq, for_oneByteA.layout_ok, for_oneByteA.size_le,
    for_oneByteA.hashes_ok, for_oneByteA.root_eq, for_oneByteA.key_eq⟩

theorem Transfer.interrupted_transfer_resumes_cut :
    ∃ (w : Device) (t₀ : Transfer) (s₀ : Session) (offered : List (SourceFile × FileEntry))
      (bitmaps : List ChunkBitmap),
      (Device.idle .empty).runs shortFileHash recordedThenCut = some w ∧
      t₀.PicksUp (oneByteAgain w.disk) offered bitmaps s₀ ∧ missing bitmaps ⟨0, 0⟩ = false := by
  have hcheck : ((Device.idle .empty).runs shortFileHash recordedThenCut).any (fun w =>
      recordedBit shortFileHash w.disk ["out", "a"] keyA 0 &&
      (Transfer.init.runs (oneByteAgain w.disk) oneByteGreeted).any fun t =>
        t.sender.main.isAwaiting &&
        decide (t.sender.offered.map Prod.snd = [oneByteEntry 0 "a" rootA digestA]) &&
        (t.step (oneByteAgain w.disk) (.offer [allCallsSucceed] true)).any fun t₀ => t₀.roomy)
      = true := by
    decide +kernel
  simp only [Option.any_eq_true, Bool.and_eq_true, decide_eq_true_eq] at hcheck
  obtain ⟨w, hw, hbit, t, ht, ⟨hmain, hoffered⟩, t₀, hstep, hroomy⟩ := hcheck
  obtain ⟨accept, totalBytes, s₀, hreceiver, -, hroom⟩ := Transfer.recordable_of_roomy hroomy
  have hentry : ∀ x ∈ t.sender.offered, x.2 = oneByteEntry 0 "a" rootA digestA := by
    intro x hx
    have hmem := List.mem_map_of_mem (f := Prod.snd) hx
    rw [hoffered] at hmem
    exact List.mem_singleton.1 hmem
  have hchecks : ∀ x ∈ t.sender.offered, ∀ ch, (oneByteAgain w.disk).Checks x.2 ch →
      ch = ⟨"a", ["out", "a"], oneByteLayout, [digestA], keyA⟩ := by
    intro x hx ch hch
    rw [hentry x hx] at hch
    exact hch.unique for_oneByteA
  have hcont : (oneByteAgain w.disk).Continues (listedDigests shortFileDigests) .empty
      recordedThenCut t.sender.offered := by
    refine ⟨⟨w, hw, rfl⟩, fun x hx ch hch => rfl, fun x hx ch hch => ?_, fun x hx ch hch => ?_⟩
    · obtain rfl := hchecks x hx ch hch
      exact recordedThenCut_steady
    · obtain rfl := hchecks x hx ch hch
      exact ⟨rootA_mem, digestA_mem⟩
  have hapart : EntriesApart ["out"]
      ((oneByteAgain w.disk).offering t.sender.offered [allCallsSucceed]).entries := by
    rw [Parties.offering, hoffered]
    exact entriesApart_singleton _ _
  obtain ⟨bitmaps, hpicks⟩ := Transfer.interrupted_transfer_resumes
    (show 0 < plainConfig.frameSize.toNat by decide)
    (show plainConfig.frameSize.toNat ≤ MAX_FRAME_PAYLOAD by decide)
    (show 0 < plainConfig.streamCount.toNat by decide) collisionFreeOn_shortFileHash ht
    (SenderPc.awaiting_of_isAwaiting hmain) hcont hapart rfl
    (fun io hio => by
      rw [List.mem_singleton.1 hio]
      rfl) hstep hreceiver hroom
  obtain ⟨x, hx⟩ : ∃ x, t.sender.offered = [x] := by
    have hlen := congrArg List.length hoffered
    rw [List.length_map] at hlen
    exact List.length_eq_one_iff.1 hlen
  have hch : (oneByteAgain w.disk).Checks x.2
      ⟨"a", ["out", "a"], oneByteLayout, [digestA], keyA⟩ := by
    rw [hentry x (hx ▸ List.mem_singleton.2 rfl)]
    exact checks_oneByteA w.disk
  exact ⟨w, t₀, s₀, _, bitmaps, hw, hpicks, hpicks.recorded 0 0 x _ (by rw [hx]; rfl) hch hbit⟩

end AetherLink
