import AetherLink.Proofs.Overlap

set_option autoImplicit false

/-! # Which loaded records are true

At the place where `run` looks for the record of an entry, in any reception of any run whose steps
spare the record of the destination: what `load` returns there sets bits for chunks that the file
holds. -/

namespace AetherLink

open Bytes Storage

/-- What `run` has opened is a file with a name, and the entry it looks up the record of is among
    it. -/
structure Reception.Opens (r : Reception) : Prop where
  named : ∀ c ∈ r.opened, Named c.dest
  loading : ∀ st x c sink preexisting todo,
    r.phase = .offered st (.loading x c sink preexisting) todo → c ∈ r.opened

theorem Reception.Opens.step {blake3 : Blake3} {r r' : Reception} {d d' : FileSystem}
    {a : ReceptionAct} (h : r.Opens) (hmove : ReceptionMove blake3 r d a r' d') : r'.Opens := by
  cases hmove with
  | answers hphase => exact ⟨h.named, fun _ _ _ _ _ _ heq => by cases heq⟩
  | refuses hphase error => exact ⟨h.named, fun _ _ _ _ _ _ heq => by cases heq⟩
  | fails hphase hcheck hcreate =>
      refine ⟨fun c' hc' => ?_, fun _ _ _ _ _ _ heq => by cases heq⟩
      rcases List.mem_cons.1 hc' with rfl | hc'
      · exact (checkEntry_ok hcheck).1.named
      · exact h.named c' hc'
  | creates hphase hcheck hcreate =>
      refine ⟨fun c' hc' => ?_, fun _ _ _ _ _ _ heq => ?_⟩
      · rcases List.mem_cons.1 hc' with rfl | hc'
        · exact (checkEntry_ok hcheck).1.named
        · exact h.named c' hc'
      · cases heq
        exact List.mem_cons_self
  | @consults st x todo c sink preexisting hphase =>
      refine ⟨h.named, fun st' y c' sink' preexisting' todo' heq => ?_⟩
      exact absurd (Phase.offered.inj heq).2.1 (Reception.consult_ne_loading blake3 _ d x c sink
        preexisting y c' sink' preexisting')
  | verifies hphase hindex hstep => exact ⟨h.named, fun _ _ _ _ _ _ heq => by cases heq⟩
  | verifyFails hphase error => exact ⟨h.named, fun _ _ _ _ _ _ heq => by cases heq⟩
  | verified hphase => exact ⟨h.named, fun _ _ _ _ _ _ heq => by cases heq⟩
  | notes hphase => exact ⟨h.named, fun _ _ _ _ _ _ heq => by cases heq⟩
  | unsent hphase error => exact ⟨h.named, fun _ _ _ _ _ _ heq => by cases heq⟩
  | session hphase heff => exact ⟨h.named, fun _ _ _ _ _ _ heq => by cases heq⟩

theorem Host.opens_of_runs {blake3 : Blake3} {disk : FileSystem} {as : List HostAct} {h : Host}
    (hrun : (Host.fresh disk).runs blake3 as = some h) : ∀ r ∈ h.receptions, r.Opens := by
  refine Run.invariant (I := fun h : Host => ∀ r ∈ h.receptions, r.Opens)
    (fun h a h' hI hstep => ?_) (fun r hr => absurd hr List.not_mem_nil) hrun
  cases Host.step_moves hstep with
  | offer o hreturned =>
      intro r hr
      rcases List.mem_append.1 hr with hr | hr
      · exact hI r hr
      · obtain rfl := List.mem_singleton.1 hr
        exact ⟨fun c hc => absurd hc List.not_mem_nil, fun _ _ _ _ _ _ heq => by cases heq⟩
  | reception hr hmove =>
      intro r hr'
      rcases List.mem_or_eq_of_mem_set hr' with hr' | rfl
      · exact hI r hr'
      · exact (hI _ (List.mem_of_getElem? hr)).step hmove
  | kill => exact fun r hr => absurd hr List.not_mem_nil

/-- **When a record is believed rightly.** Receptions follow one another in any number of processes,
    each with its own offer, in any order of steps; the processes are killed at any point, and the
    workers of a reception that has returned run on beside the next. It starts without a record of
    `dest`, and every step spares the recorded bytes and what belongs to a later reception. Then a
    bitmap that `run` loads for an entry it opens at `dest` sets bits for chunks that the file
    holds. -/
theorem loaded_bits_true_of_spared {blake3 : Blake3} {T : Set Hash} (hcf : CollisionFreeOn blake3 T)
    {dest : FilePath} {disk : FileSystem} (hnone : disk.contents (statePath dest) = none)
    {as : List HostAct} (hdigests : ∀ a ∈ as, a.DigestsIn blake3 T)
    (hspares : Run.Meets (Host.step blake3) (Host.SparesRecords blake3 dest) (.fresh disk) as)
    {h : Host} (hrun : (Host.fresh disk).runs blake3 as = some h) {r : Reception}
    (hr : r ∈ h.receptions) {st : OfferState} {x : FileEntry × EntryIo} {c : Checked}
    {sink : SinkFile} {preexisting : Bool} {todo : List (FileEntry × EntryIo)}
    (hphase : r.phase = .offered st (.loading x c sink preexisting) todo) (hdest : c.dest = dest)
    {b : ChunkBitmap} (hload : Resume.load blake3 h.disk c.dest c.key = some b) :
    ∃ content, h.disk.contents dest = some content ∧
      Truthful blake3 c.layout c.chunkHashes content b := by
  subst hdest
  have hopens := Host.opens_of_runs hrun r hr
  have hc := hopens.loading st x c sink preexisting todo hphase
  have hlinked := (Host.Linked.fresh (T := T) (RecordTrue.of_none hnone)).runs hcf
    (hopens.named c hc) hdigests hspares hrun
  exact (hlinked.record.load hcf ((hlinked.bound r hr).opened c hc).2.commits hload).2.2

/-! ## Two files of one byte at one path -/

/-- Another file of one byte under the name `a`. -/
def otherOffering : Offering :=
  { singleOffering with entries := [(oneByteEntry 0 "a" rootB digestB, allCallsSucceed)] }

/-- The file `a`, with two streams asked for. -/
def twoStreamsOffering : Offering :=
  { singleOffering with streamCount := 2 }

/-- An entry of one byte commits to its digest and root. -/
theorem digestsIn_oneByteEntry {fileId : UInt64} {path : String} {root digest : Hash} {c : Checked}
    (h : c.For shortFileHash plainConfig ["out"] 65536 (oneByteEntry fileId path root digest))
    (hsplit : splitHashes digest.1 1 = .ok [digest])
    (hdigest : digest ∈ shortFileDigests.map Prod.snd)
    (hroot : rootFromChunkHashes shortFileHash [digest] ∈ shortFileDigests.map Prod.snd) :
    c.key.rootHash ∈ listedDigests shortFileDigests ∧
      ∀ h ∈ c.chunkHashes, h ∈ listedDigests shortFileDigests := by
  have hlayout : c.layout = oneByteLayout :=
    Except.ok.inj (h.layout_ok.symm.trans commits_keyA.layout_ok)
  have hhashes : c.chunkHashes = [digest] := by
    have := h.hashes_ok
    rw [hlayout] at this
    exact Except.ok.inj (this.symm.trans hsplit)
  rw [h.key_eq, hhashes]
  refine ⟨hroot, fun x hx => ?_⟩
  obtain rfl := List.mem_singleton.1 hx
  exact hdigest

theorem singleOffering_digests : singleOffering.DigestsIn shortFileHash (listedDigests shortFileDigests) := by
  intro x hx c hc
  obtain rfl := List.mem_singleton.1 hx
  exact digestsIn_oneByteEntry hc (by decide +kernel) (by decide) (by decide +kernel)

theorem twoStreamsOffering_digests :
    twoStreamsOffering.DigestsIn shortFileHash (listedDigests shortFileDigests) :=
  singleOffering_digests

theorem otherOffering_digests : otherOffering.DigestsIn shortFileHash (listedDigests shortFileDigests) := by
  intro x hx c hc
  obtain rfl := List.mem_singleton.1 hx
  exact digestsIn_oneByteEntry hc (by decide +kernel) (by decide) (by decide +kernel)

/-- The `i`-th reception of a process is offered `o`, and goes so many steps with it. -/
def offered (i : Nat) (o : Offering) (steps : Nat) : List HostAct :=
  .offer o :: List.replicate steps (.reception i .advance)

/-- The session of the `i`-th reception takes these steps. -/
def within (i : Nat) (as : List SessionAct) : List HostAct :=
  as.map fun a => .reception i (.session a)

/-- A frame with the byte arrives on stream 0 and verifies. -/
def verifiedByte (b : UInt8) : List SessionAct :=
  .deliver 0 (oneByteFrame 0 b) :: List.replicate 3 (.worker 0 .next)

/-- The destination whose record the last reception is about to look up and, if `load` returns a
    bitmap, its first bit and whether that chunk is there. -/
def Host.believed (h : Host) : Option (FilePath × Bool × Bool) :=
  match h.receptions.getLast?.map Reception.phase with
  | some (.offered _ (.loading _ c _ _) _) =>
      (Resume.load shortFileHash h.disk c.dest c.key).bind fun b =>
        (h.disk.contents c.dest).map fun content =>
          (c.dest, b.has 0, decide (ChunkHeld shortFileHash c.layout c.chunkHashes content 0))
  | _ => none

/-- The process starts, records the file `a` and is killed. It starts again, another file arrives
    under that name, and it is killed before its checkpoint. It starts a third time, and the first
    file is offered again, up to the look for its record. -/
def overwrittenRun : List HostAct :=
  offered 0 singleOffering 4 ++ within 0 recordingRun ++ [.kill] ++
    offered 0 otherOffering 6 ++ within 0 ([.accept] ++ receiveOneByte 0 0 0x42) ++ [.kill] ++
    offered 0 singleOffering 1

/-- A worker of the first reception has its byte to write when the second stream fails. The next
    offer is of another file under that name, whose byte it writes over before that is recorded. -/
def overtakenRun : List HostAct :=
  offered 0 twoStreamsOffering 4 ++
    within 0 ([.accept] ++ verifiedByte 0x41 ++ [.refuse (.protocol "no hello")]) ++
    offered 1 otherOffering 6 ++ within 1 ([.accept] ++ receiveOneByte 0 0 0x42) ++
    within 0 [.worker 0 (.write 1)] ++ within 1 (saveRecord 0) ++ [.kill] ++
    offered 0 otherOffering 1

/-- A worker that has outlived its `run` does it too. -/
example : ((Host.fresh .empty).runs shortFileHash overtakenRun).bind Host.believed
    = some (["out", "a"], true, false) := by
  decide +kernel

/-- A worker of the first reception has recorded its byte when the second stream fails. The same file
    is offered again, and beside it the worker receives its byte once more and writes it. -/
def outlivedRun : List HostAct :=
  offered 0 twoStreamsOffering 4 ++
    within 0 ([.accept] ++ receiveOneByte 0 0 0x41 ++ saveRecord 0 ++
      [.refuse (.protocol "no hello")]) ++
    offered 1 singleOffering 1 ++ within 0 (verifiedByte 0x41 ++ [.worker 0 (.write 1)])

theorem digestsIn_offered {i steps : Nat} {o : Offering}
    (h : o.DigestsIn shortFileHash (listedDigests shortFileDigests)) :
    ∀ a ∈ offered i o steps, a.DigestsIn shortFileHash (listedDigests shortFileDigests) := by
  intro a ha
  rcases List.mem_cons.1 ha with rfl | ha
  · exact h
  · obtain rfl := List.eq_of_mem_replicate ha
    trivial

theorem digestsIn_within (i : Nat) (as : List SessionAct) :
    ∀ a ∈ within i as, a.DigestsIn shortFileHash (listedDigests shortFileDigests) := by
  intro a ha
  obtain ⟨b, -, rfl⟩ := List.mem_map.1 ha
  trivial

/-- The last reception is about to look for the record. -/
theorem Host.believed_eq_some {h : Host} {dest : FilePath} {bit held : Bool}
    (heq : h.believed = some (dest, bit, held)) :
    ∃ r ∈ h.receptions, ∃ st x c sink preexisting todo b content,
      r.phase = .offered st (.loading x c sink preexisting) todo ∧ c.dest = dest ∧
        Resume.load shortFileHash h.disk c.dest c.key = some b ∧
        h.disk.contents c.dest = some content ∧ b.has 0 = bit ∧
        decide (ChunkHeld shortFileHash c.layout c.chunkHashes content 0) = held := by
  unfold believed at heq
  split at heq
  · next st x c sink preexisting todo hlast =>
      obtain ⟨r, hr, hphase⟩ := Option.map_eq_some_iff.1 hlast
      obtain ⟨b, hload, heq⟩ := Option.bind_eq_some_iff.1 heq
      obtain ⟨content, hcontent, heq⟩ := Option.map_eq_some_iff.1 heq
      cases heq
      exact ⟨r, List.mem_of_getLast? hr, st, x, c, sink, preexisting, todo, b, content, hphase, rfl,
        hload, hcontent, rfl, rfl⟩
  · cases heq

/-- The first file's record survives the second file, and the offer of the first file believes it. -/
theorem stale_record_of_other_key :
    ¬ ∀ (blake3 : Blake3) (T : Set Hash) (as : List HostAct) (h : Host) (r : Reception)
      (st : OfferState) (x : FileEntry × EntryIo) (c : Checked) (sink : SinkFile) (preexisting : Bool)
      (todo : List (FileEntry × EntryIo)) (b : ChunkBitmap), CollisionFreeOn blake3 T →
      (∀ a ∈ as, a.DigestsIn blake3 T) → (Host.fresh .empty).runs blake3 as = some h →
      r ∈ h.receptions → r.phase = .offered st (.loading x c sink preexisting) todo →
      Resume.load blake3 h.disk c.dest c.key = some b →
      ∃ content, h.disk.contents c.dest = some content ∧
        Truthful blake3 c.layout c.chunkHashes content b := by
  intro hclaim
  have hrun : ((Host.fresh .empty).runs shortFileHash overwrittenRun).bind Host.believed
      = some (["out", "a"], true, false) := by
    decide +kernel
  obtain ⟨h, hh, hbelieved⟩ := Option.bind_eq_some_iff.1 hrun
  obtain ⟨r, hr, st, x, c, sink, preexisting, todo, b, content, hphase, -, hload, hcontent, hbit,
    hheld⟩ := Host.believed_eq_some hbelieved
  have hdigests : ∀ a ∈ overwrittenRun,
      a.DigestsIn shortFileHash (listedDigests shortFileDigests) := by
    intro a ha
    simp only [overwrittenRun, List.append_assoc, List.mem_append, List.mem_singleton] at ha
    rcases ha with ha | ha | rfl | ha | ha | rfl | ha
    · exact digestsIn_offered singleOffering_digests a ha
    · exact digestsIn_within 0 _ a ha
    · trivial
    · exact digestsIn_offered otherOffering_digests a ha
    · exact digestsIn_within 0 _ a ha
    · trivial
    · exact digestsIn_offered singleOffering_digests a ha
  obtain ⟨content', hcontent', htrue⟩ := hclaim _ _ _ h r st x c sink preexisting todo b
    collisionFreeOn_shortFileHash hdigests hh hr hphase hload
  obtain rfl := Option.some.inj (hcontent.symm.trans hcontent')
  exact of_decide_eq_false hheld (htrue 0 hbit)

/-! ### A run that spares the record -/

/-- The record of `dest` is not there yet, or the bytes stay as they are. -/
def unrecorded (d : FileSystem) (dest : FilePath) (before after : List UInt8) : Bool :=
  (d.contents (statePath dest)).isNone || before == after

theorem sparesRecorded_of_unrecorded {blake3 : Blake3} {d : FileSystem} {dest : FilePath}
    {own : StateKey} {before after : List UInt8} (h : unrecorded d dest before after = true) :
    SparesRecorded blake3 d dest own before after := by
  intro key l i _ _ hbit k _
  rw [unrecorded, Bool.or_eq_true, Option.isNone_iff_eq_none, beq_iff_eq] at h
  rcases h with hnone | rfl
  · rw [recordedBit, hnone] at hbit
    cases hbit
  · rfl

/-- What the receptions after the `i`-th have opened. -/
def Host.later (h : Host) (i : Nat) : List Checked :=
  (h.receptions.drop (i + 1)).flatMap Reception.opened

theorem Host.OpenedAfter.mem_later {h : Host} {i : Nat} {c : Checked} (hc : h.OpenedAfter i c) :
    c ∈ h.later i := by
  obtain ⟨j, r, hij, hr, hmem⟩ := hc
  refine List.mem_flatMap.2 ⟨r, List.mem_of_getElem? (i := j - (i + 1)) ?_, hmem⟩
  rw [List.getElem?_drop, ← hr]
  congr 1
  omega

/-- A test on what is opened that is enough for `Host.SparesOpening`. -/
def Host.opensCalmly (dest : FilePath) (h : Host) (x : FileEntry × EntryIo) (c : Checked) : Bool :=
  decide (c.dest ≠ statePath dest ∧ dest ≠ statePath c.dest ∧ dest ≠ tmpPath c.dest) &&
    ((h.receptions.flatMap Reception.opened).all fun c' =>
      decide (c.dest ≠ statePath c'.dest ∧ c.dest ≠ tmpPath c'.dest ∧ c'.dest ≠ statePath c.dest ∧
        c'.dest ≠ tmpPath c.dest)) &&
    unrecorded h.disk dest ((h.disk.contents dest).getD [])
      (sized ((h.disk.contents dest).getD []) x.1.sizeBytes.toNat)

theorem Host.sparesOpening_of_calm {blake3 : Blake3} {dest : FilePath} {h : Host}
    {x : FileEntry × EntryIo} {c : Checked} (hcalm : h.opensCalmly dest x c = true) :
    h.SparesOpening blake3 dest x c := by
  simp only [opensCalmly, Bool.and_eq_true, decide_eq_true_eq, List.all_eq_true] at hcalm
  obtain ⟨⟨⟨hstate, hstate', htmp'⟩, hapart⟩, hbytes⟩ := hcalm
  refine ⟨⟨hstate, hstate', htmp'⟩, fun r hr c' hc' => ?_,
    fun _ _ _ => sparesRecorded_of_unrecorded hbytes⟩
  obtain ⟨h₁, h₂, h₃, h₄⟩ := hapart c' (List.mem_flatMap.2 ⟨r, hr, hc'⟩)
  exact ⟨h₁, h₂, h₃, h₄⟩

/-- A test on what a worker is about to write that is enough for `Session.SparesRecords`. -/
def Host.writesCalmly (dest : FilePath) (h : Host) (s : Session) (w : Worker) : IoAct → Bool
  | .write n =>
      match w.pc, w.current with
      | .write done, some c => (s.env.files.lookup c.fileId).all fun st =>
          unrecorded h.disk dest (h.disk.data st.sink.ino)
            (pwrite (h.disk.data st.sink.ino) (c.start + done) (slice w.buf done n))
      | _, _ => true
  | _ => true

/-- A test on a worker that is enough for `Host.LeavesToLater`. -/
def Host.leavesCalmly (h : Host) (i : Nat) (s : Session) (w : Worker) : Bool :=
  (h.later i).all fun c' => match w.pc with
    | .checkpoint _ => false
    | .write _ => s.env.files.entries.all fun f => decide (c'.key = f.2.key)
    | _ => true

/-- The step passes the tests. -/
def Host.calm (dest : FilePath) (h : Host) : HostAct → Bool
  | .reception i .advance => h.receptions[i]?.all fun r =>
      match r.phase with
      | .offered st .next (x :: _) =>
          (checkEntry shortFileHash r.offering.config r.offering.outputDir r.offering.chunkSize
            st.seenPaths x.1).toOption.all fun c => h.opensCalmly dest x c
      | _ => true
  | .reception i (.session (.worker k io)) => h.receptions[i]?.all fun r =>
      match r.phase with
      | .receiving _ s => s.workers[k]?.all fun w =>
          h.writesCalmly dest s w io && h.leavesCalmly i s w
      | _ => true
  | _ => true

theorem Host.sparesRecords_of_calm {dest : FilePath} {h : Host} {a : HostAct}
    (hcalm : h.calm dest a = true) : h.SparesRecords shortFileHash dest a := by
  cases a with
  | offer o => trivial
  | kill => trivial
  | reception i a =>
      intro r hr
      cases a with
      | unsent error => trivial
      | advance =>
          intro st x todo c hphase hcheck
          simp only [calm, hr, hphase, hcheck, Option.all_some, Except.toOption] at hcalm
          exact sparesOpening_of_calm hcalm
      | session a =>
          intro p s hphase
          cases a with
          | worker k io =>
              simp only [calm, hr, hphase, Option.all_some] at hcalm
              refine ⟨?_, fun k' io' w heq hw => ?_⟩
              · cases io with
                | write n =>
                    intro w c st done hw hpc hcur hst hpath
                    rw [Session.onDisk_workers] at hw
                    simp only [hw, Option.all_some, Bool.and_eq_true, writesCalmly, hpc, hcur] at hcalm
                    rw [Session.onDisk_files] at hst
                    rw [hst, Option.all_some] at hcalm
                    exact sparesRecorded_of_unrecorded hcalm.1
                | _ => trivial
              · cases heq
                simp only [hw, Option.all_some, Bool.and_eq_true, leavesCalmly, List.all_eq_true]
                  at hcalm
                refine ⟨fun n done c st _ hpc hcur hst hpath c' hc' _ => ?_,
                  fun pc hpc id st hst c' hc' => ?_⟩
                · have hkeys := hcalm.2 c' hc'.mem_later
                  simp only [hpc, List.all_eq_true, decide_eq_true_eq] at hkeys
                  exact hkeys _ (AList.mem_lookup_iff.1 hst)
                · have hnone := hcalm.2 c' hc'.mem_later
                  simp only [hpc] at hnone
                  cases hnone
          | _ => exact ⟨trivial, fun k io w heq => by cases heq⟩

theorem loaded_bits_true_of_spared_outlived :
    ∃ (h : Host) (c : Checked) (b : ChunkBitmap), c.dest = ["out", "a"] ∧ b.has 0 = true ∧
      (Host.fresh .empty).runs shortFileHash outlivedRun = some h ∧
      ∃ content, h.disk.contents ["out", "a"] = some content ∧
        Truthful shortFileHash c.layout c.chunkHashes content b := by
  have hrun : ((Host.fresh .empty).runs shortFileHash outlivedRun).bind Host.believed
      = some (["out", "a"], true, true) := by
    decide +kernel
  obtain ⟨h, hh, hbelieved⟩ := Option.bind_eq_some_iff.1 hrun
  obtain ⟨r, hr, st, x, c, sink, preexisting, todo, b, content, hphase, hdest, hload, -, hbit, -⟩ :=
    Host.believed_eq_some hbelieved
  have hdigests : ∀ a ∈ outlivedRun,
      a.DigestsIn shortFileHash (listedDigests shortFileDigests) := by
    intro a ha
    simp only [outlivedRun, List.append_assoc, List.mem_append] at ha
    rcases ha with ha | ha | ha | ha
    · exact digestsIn_offered twoStreamsOffering_digests a ha
    · exact digestsIn_within 0 _ a ha
    · exact digestsIn_offered singleOffering_digests a ha
    · exact digestsIn_within 0 _ a ha
  have hcalm : Run.Meets (Host.step shortFileHash) (fun h a => h.calm ["out", "a"] a = true)
      (.fresh .empty) outlivedRun := by
    decide +kernel
  exact ⟨h, c, b, hdest, hbit, hh, loaded_bits_true_of_spared collisionFreeOn_shortFileHash rfl hdigests
    (hcalm.mono fun _ _ => Host.sparesRecords_of_calm) hh hr hphase hdest hload⟩

end AetherLink
