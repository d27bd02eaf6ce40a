import AetherLink.Proofs.Names

set_option autoImplicit false

/-! # The length of a destination

`SinkFile::create` opens a destination without truncating it and leaves the length to `preallocate`,
which returns at once for size zero; from then on nothing sets it. So a destination ends with the
length it was given at creation, which is the offered one unless an empty file is offered where there
are bytes already. -/

namespace AetherLink

open Bytes Storage

/-! ## Creating -/

/-- Sizing gives the size, unless it is zero. -/
theorem length_sized_eq_iff (c : List UInt8) (n : Nat) :
    (sized c n).length = n ↔ n ≠ 0 ∨ c = [] := by
  unfold sized
  split
  · next hz => simp [hz, List.length_eq_zero_iff]
  · next hz => exact iff_of_true (length_setLen c n) (Or.inl hz)

theorem le_length_sized (c : List UInt8) (n : Nat) : n ≤ (sized c n).length := by
  unfold sized
  split
  · omega
  · exact Nat.le_of_eq (length_setLen c n).symm

/-- Sizing keeps the bytes that are there, up to the size. -/
theorem getElem?_sized {bs : List UInt8} {n k : Nat} (hk : k < min bs.length n) :
    (sized bs n)[k]? = bs[k]? := by
  unfold sized
  split
  · rfl
  · rw [getElem?_setLen, if_pos (by omega), getElem?_of_lt (by omega)]

/-! ## Runs -/

/-- The path names a file of this length, and nothing in progress can change that: a sink on the
    file writes inside it, and no checkpoint has it open as its temporary file. -/
structure Session.Rests (q : FilePath) (ino n : Nat) (s : Session) : Prop where
  node : s.env.disk.node q = some (.file ino)
  length : (s.env.disk.data ino).length = n
  sinks : ∀ id st, s.env.files.lookup id = some st → st.sink.ino = ino → st.layout.fileSize ≤ n
  handles : ∀ a id pc tmp, s.checkpointOf a = some (id, pc) → pc.tmp? = some tmp → tmp ≠ ino

namespace Session.Rests

variable {p : Params} {q : FilePath} {ino n : Nat} {s s' : Session} {e : Effect}

/-- What reaches the file is inside it. -/
theorem length_ops (h : s.Rests q ino n) (hmove : SessionMove p s s' e) (hfits : s.Fits p.blake3)
    (hq : q ∉ e.recordPaths) :
    (applyAll (s.env.disk.data ino) (e.ops s.env.disk ino)).length = n := by
  have hnone : e.ops s.env.disk ino = [] →
      (applyAll (s.env.disk.data ino) (e.ops s.env.disk ino)).length = n := by
    intro hnil
    rw [hnil, applyAll_nil]
    exact h.length
  have hcheckpoint : ∀ a id pc next st, s.checkpointOf a = some (id, pc) →
      CheckpointMove p.blake3 s.env.disk st pc next e → e.ops s.env.disk ino = [] := by
    intro a id pc next st hcp hcpm
    cases hcpm with
    | creates snapshot hc =>
        simp only [Effect.ops]
        rw [if_neg]
        intro hnode
        have hpath := s.env.disk.node_inj _ _ _ hnode h.node
        exact hq (by simp [Effect.recordPaths, hpath])
    | writes snapshot tmp hn hfit =>
        simp only [Effect.ops]
        rw [if_neg (h.handles a id _ tmp hcp rfl)]
    | _ => rfl
  cases hmove.turn with
  | elsewhere hplain hcp => exact hnone (hplain.ops_eq_nil (s.env.disk.node_lt _ _ h.node))
  | begins a id hplain hpc' hothers =>
      exact hnone (hplain.ops_eq_nil (s.env.disk.node_lt _ _ h.node))
  | goesOn a id pc pc' st hst hcpm hpc hpc' hothers => exact hnone (hcheckpoint a id pc _ st hpc hcpm)
  | finishes a id pc r st hst hcpm hpc hpc' hothers => exact hnone (hcheckpoint a id pc _ st hpc hcpm)
  | sinkWrite w c st done m hmem hpc hcur hst hfit heff hcp =>
      subst heff
      simp only [Effect.ops]
      split
      · next hino =>
          have hsize := h.sinks _ st hst hino
          obtain ⟨st₁, hst₁, hof⟩ := (hfits w hmem).current c hcur
          obtain rfl := Option.some.inj (hst.symm.trans hst₁)
          have hpay := (hfits w hmem).payload (by simp [hpc, WorkerPc.Verified]) c st hcur hst
          have hin := st.layout.start_add_len_le hof.index
          have hlen : (slice w.buf done m).length = m := length_slice_of_le hfit
          have hbuf := hpay.length_eq
          show (Bytes.pwrite (s.env.disk.data ino) (c.start + done) (slice w.buf done m)).length = n
          rw [length_pwrite_of_le, h.length]
          rw [h.length, hlen, hof.start_eq]
          omega
      · exact h.length
  | sinkSync id st hst hmain heff hcp => exact hnone (by rw [heff]; rfl)
  | removes id st hst path hpath hmain heff hcp => exact hnone (by rw [heff]; rfl)

/-- **A step with no record operation on the path leaves the length of the file.** -/
theorem step (h : s.Rests q ino n) (hmove : SessionMove p s s' e) (hfits : s.Fits p.blake3)
    (hq : q ∉ e.recordPaths) : s'.Rests q ino n := by
  have hlt := s.env.disk.node_lt _ _ h.node
  have hnode : s'.env.disk.node q = some (.file ino) := by
    rw [hmove.env_eq, Env.apply_disk, Effect.node_onDisk hq]
    exact h.node
  refine ⟨hnode, ?_, fun id st' hst' hino => ?_, fun a id pc tmp hcp htmp => ?_⟩
  · rw [hmove.env_eq, Env.apply_disk, (e.onInode hlt).data]
    exact h.length_ops hmove hfits hq
  · obtain ⟨st, hst, -, hsame⟩ := hmove.lookup_back hst'
    rw [hsame.sink] at hino
    rw [hsame.layout]
    exact h.sinks id st hst hino
  · -- a handle is an old one, or the inode of the temporary path just created
    have hkept : ∀ b, s'.checkpointOf b = s.checkpointOf b → s'.checkpointOf b = some (id, pc) →
        tmp ≠ ino :=
      fun b hb hcp' => h.handles b id pc tmp (hb ▸ hcp') htmp
    cases hmove.turn with
    | elsewhere hplain hsame => exact hkept a (hsame a) hcp
    | begins b id₀ hplain hpc' hothers =>
        by_cases hab : a = b
        · subst hab
          rw [hpc'] at hcp
          cases hcp
          cases htmp
        · exact hkept a (hothers a hab) hcp
    | goesOn b id₀ pc₀ pc₀' st₀ hst₀ hcpm hpc hpc' hothers =>
        by_cases hab : a = b
        · subst hab
          rw [hpc'] at hcp
          cases hcp
          rcases hcpm.tmp_cases htmp with hold | ⟨he, htmpnode⟩
          · exact h.handles a id pc₀ tmp hpc hold
          · rintro rfl
            rw [hmove.env_eq, Env.apply_disk] at hnode
            have hpath := (e.onDisk s.env.disk).node_inj _ _ _ htmpnode hnode
            exact hq (by simp [he, Effect.recordPaths, hpath])
        · exact hkept a (hothers a hab) hcp
    | finishes b id₀ pc₀ r st₀ hst₀ hcpm hpc hpc' hothers =>
        by_cases hab : a = b
        · subst hab
          rw [hpc'] at hcp
          cases hcp
        · exact hkept a (hothers a hab) hcp
    | sinkWrite w c st₀ done m hmem hpc hcur hst₀ hfit heff hsame => exact hkept a (hsame a) hcp
    | sinkSync id₀ st₀ hst₀ hmain heff hsame => exact hkept a (hsame a) hcp
    | removes id₀ st₀ hst₀ path hpath hmain heff hsame => exact hkept a (hsame a) hcp

end Session.Rests

/-! ## Whole transfers -/

/-- There are no bytes where the entry offers an empty file. -/
def ClearIfEmpty (disk : FileSystem) (outputDir : FilePath) (entry : FileEntry) : Prop :=
  entry.sizeBytes ≠ 0 ∨ ∀ d ∈ entry.dest outputDir, (disk.contents d).getD [] = []

section Transfer

variable {p : Params} {config : Config} {outputDir : FilePath} {chunkSize : UInt32}
  {disk : FileSystem} {entries : List (FileEntry × EntryIo)} {st : OfferState}

/-- What the offer loop leaves at an entry's destination is at rest when the session starts. -/
theorem rests_start
    (hoffer : offerLoop p.blake3 config outputDir chunkSize (.init disk) entries = .ok st)
    {x : FileEntry × EntryIo} (hx : x ∈ entries) (streamCount : UInt32) :
    ∃ d ino, x.1.dest outputDir = some d ∧ (Session.start st streamCount).Rests d ino
      (sized ((disk.contents d).getD []) x.1.sizeBytes.toNat).length := by
  have hacc := accepted_offerLoop hoffer
  obtain ⟨safePath, hsan, -, hcont⟩ := (openedAll_offerLoop hoffer).sized x hx
  have hdest : x.1.dest outputDir = some (outputDir ++ pathComponents safePath) := by
    rw [FileEntry.dest, hsan]
  obtain ⟨ino, hnode, hdata⟩ := Disk.contents_eq_some hcont
  refine ⟨_, ino, hdest, hnode, by rw [hdata]; rfl, fun id fs hfs hino => ?_,
      fun a id pc tmp hcp => ?_⟩
  · -- a sink on this file serves this entry
    have hpath := st.disk.node_inj _ _ _ (hacc.named id fs hfs) (hino ▸ hnode)
    obtain ⟨y, hy, -, hserves⟩ := hacc.made id fs hfs
    have hsame : y.1.dest outputDir = x.1.dest outputDir := by
      rw [hserves.dest_eq, hpath, hdest]
    obtain rfl := hacc.eq_of_dest_eq hy hx hsame (by rw [hserves.dest_eq]; rfl)
    rw [(ChunkLayout.new_ok hserves.layout_ok).1]
    exact le_length_sized _ _
  · rw [Session.checkpointOf_start] at hcp
    cases hcp

/-- The length a destination is given at creation is the one it has ever after. -/
theorem length_of_runs
    (hoffer : offerLoop p.blake3 config outputDir chunkSize (.init disk) entries = .ok st)
    {streamCount : UInt32} {as : List SessionAct} {s : Session}
    (hrun : (Session.start st streamCount).runs p as = some s)
    (hoff : Run.Meets (Session.step p) (RecordsOffEntries p outputDir entries)
      (Session.start st streamCount) as) {x : FileEntry × EntryIo} (hx : x ∈ entries) :
    ∃ d content, x.1.dest outputDir = some d ∧ s.env.disk.contents d = some content ∧
      content.length = (sized ((disk.contents d).getD []) x.1.sizeBytes.toNat).length := by
  obtain ⟨d, ino, hdest, hrests⟩ := rests_start hoffer hx streamCount
  have hfits : (Session.start st streamCount).Fits p.blake3 := fun w hw => absurd hw List.not_mem_nil
  obtain ⟨-, hend⟩ := Run.invariant_of
    (I := fun s => s.Fits p.blake3 ∧ s.Rests d ino
      (sized ((disk.contents d).getD []) x.1.sizeBytes.toNat).length)
    (fun t a t' ht hmeets hstep => by
      obtain ⟨e, heff, hmove⟩ := Session.step_moves hstep
      exact ⟨hmove.fits ht.1, ht.2.step hmove ht.1 fun hq => hmeets t' e heff d hq x hx hdest⟩)
    ⟨hfits, hrests⟩ hoff hrun
  exact ⟨d, _, hdest, Disk.contents_of_node hend.node, hend.length⟩

/-- **When a destination has exactly the offered length.** `create` keeps the first bytes, and leaves
    the offered length unless it is zero and there are bytes. In every run over an accepted offer
    whose record operations keep off the destinations, all destinations have the offered length, in
    particular when `run` has returned `Ok`, exactly if nothing was there where an empty file is
    offered. -/
theorem destination_length_iff
    (hoffer : offerLoop p.blake3 config outputDir chunkSize (.init disk) entries = .ok st)
    {streamCount : UInt32} {as : List SessionAct} {s : Session}
    (hrun : (Session.start st streamCount).runs p as = some s)
    (hoff : Run.Meets (Session.step p) (RecordsOffEntries p outputDir entries)
      (Session.start st streamCount) as) :
    (∀ fs path size chunkSize io fs' sink,
      SinkFile.create fs path size chunkSize io = (fs', .ok sink) →
      ∃ content, fs'.contents path = some content ∧
        (∀ k, k < min ((fs.contents path).getD []).length size.toNat →
          content[k]? = ((fs.contents path).getD [])[k]?) ∧
        (content.length = size.toNat ↔ size ≠ 0 ∨ (fs.contents path).getD [] = [])) ∧
    ((∀ x ∈ entries, ∃ d content, x.1.dest outputDir = some d ∧
        s.env.disk.contents d = some content ∧ content.length = x.1.sizeBytes.toNat) ↔
      ∀ x ∈ entries, ClearIfEmpty disk outputDir x.1) := by
  have hzero : ∀ size : UInt64, size.toNat ≠ 0 ↔ size ≠ 0 := fun size => by
    rw [ne_eq, ne_eq, ← UInt64.toNat_inj]
    rfl
  refine ⟨fun fs path size chunkSize io fs' sink hcreate => ?_, forall₂_congr fun x hx => ?_⟩
  · refine ⟨_, (SinkFile.create_ok hcreate).contents, fun k hk => getElem?_sized hk, ?_⟩
    rw [length_sized_eq_iff, hzero]
  · obtain ⟨d, content, hdest, hcont, hlen⟩ := length_of_runs hoffer hrun hoff hx
    rw [ClearIfEmpty, hdest, ← hzero]
    constructor
    · rintro ⟨d', content', hd', hcont', hlen'⟩
      obtain rfl := Option.some.inj hd'
      obtain rfl := Option.some.inj (hcont.symm.trans hcont')
      rw [hlen, length_sized_eq_iff] at hlen'
      exact hlen'.imp id fun hnil d' hd' => Option.some.inj hd' ▸ hnil
    · intro hclear
      refine ⟨d, content, rfl, hcont, ?_⟩
      rw [hlen, length_sized_eq_iff]
      exact hclear.imp id fun hnil => hnil d rfl

end Transfer

/-- An empty file `a`. -/
def emptyA : List (FileEntry × EntryIo) :=
  [({ fileId := 0, relativePath := "a", sizeBytes := 0,
      rootHash := (rootFromChunkHashes shortFileHash []).1, chunkHashes := [] }, allCallsSucceed)]

/-- A file of one byte, alone, has its length in the end, and an empty file offered over a byte does
    not. -/
theorem destination_length_iff_single :
    (∃ (s : Session) (n : UInt64), s.main = .returned (.ok n) ∧
      ∀ x ∈ singleOffer, ∃ d content, x.1.dest ["out"] = some d ∧
        s.env.disk.contents d = some content ∧ content.length = x.1.sizeBytes.toNat) ∧
    ∃ st, offerLoop shortFileHash plainConfig ["out"] 65536 (.init stagedA) emptyA = .ok st ∧
      ¬ ∀ x ∈ emptyA, ∃ d content, x.1.dest ["out"] = some d ∧
        st.disk.contents d = some content ∧ content.length = x.1.sizeBytes.toNat := by
  constructor
  · obtain ⟨st, s, n, hoffer, hrun, hret⟩ := runs_singleOffer
    have hoff := ((accepted_offerLoop hoffer).sinksAtEntries 1).meets (p := uncheckpointed)
      (by decide +kernel) singleRun
    refine ⟨s, n, hret, (destination_length_iff (p := uncheckpointed) hoffer hrun hoff).2.2 ?_⟩
    intro x hx
    obtain rfl := List.mem_singleton.1 hx
    exact Or.inl (by decide)
  · have hany : (offerLoop shortFileHash plainConfig ["out"] 65536 (.init stagedA)
        emptyA).toOption.any (fun _ => true) = true := by decide +kernel
    obtain ⟨st, hoffer, -⟩ := exists_ok_of_any hany
    have hoff := ((accepted_offerLoop hoffer).sinksAtEntries 1).meets (p := uncheckpointed)
      (by decide +kernel) []
    refine ⟨st, hoffer, fun hall => ?_⟩
    have hclear := (destination_length_iff (p := uncheckpointed) hoffer (Run.runs_nil _) hoff).2.1
      hall _ List.mem_cons_self
    rcases hclear with hsize | hnil
    · exact hsize rfl
    · exact absurd (hnil ["out", "a"] (by decide +kernel)) (by decide +kernel)

/-- An empty file is offered where `out/a` holds one byte: `create` succeeds and the byte stays. -/
theorem empty_file_keeps_stale_byte :
    ¬ ∀ (fs fs' : FileSystem) (path : FilePath) (size : UInt64) (chunkSize : UInt32) (io : SinkIo)
      (sink : SinkFile), SinkFile.create fs path size chunkSize io = (fs', .ok sink) →
      ∃ content, fs'.contents path = some content ∧ content.length = size.toNat := by
  intro hclaim
  have hok : (SinkFile.create stagedA ["out", "a"] 0 65536 (.opened (.done true))).2.toOption.isSome
      = true := by decide +kernel
  rcases hcreate : SinkFile.create stagedA ["out", "a"] 0 65536 (.opened (.done true)) with ⟨fs', r⟩
  rw [hcreate] at hok
  cases r with
  | error e => cases hok
  | ok sink =>
      obtain ⟨content, hcont, hlen⟩ := hclaim _ _ _ _ _ _ _ hcreate
      have hstale : (SinkFile.create stagedA ["out", "a"] 0 65536 (.opened (.done true))).1.contents
          ["out", "a"] = some [0x41] := by decide +kernel
      rw [hcreate] at hstale
      obtain rfl := Option.some.inj (hcont.symm.trans hstale)
      cases hlen

end AetherLink
