import AetherLink.Proofs.Turn
import AetherLink.Proofs.Completion

set_option autoImplicit false

/-! # Record names and destinations

The record of `x` is `x.aether_state`, written as `x.tmp`; both can be the destination of another
entry of the same offer, and the check on `seen_paths` compares destinations with each other only.
Where no entry's destination is the record or the temporary file of another, record operations keep
off the destinations, and every destination keeps naming its sink. -/

namespace AetherLink

open Bytes Storage

/-! ## Record operations -/

/-- What a checkpoint creates, renames or removes is the record or the temporary file of its own
    file. -/
theorem CheckpointMove.recordPaths {blake3 : Blake3} {disk : FileSystem} {st : FileState}
    {pc : CheckpointPc} {next : CheckpointNext} {e : Effect}
    (h : CheckpointMove blake3 disk st pc next e) {q : FilePath} (hq : q ∈ e.recordPaths) :
    q = statePath st.sink.path ∨ q = tmpPath st.sink.path := by
  cases h with
  | creates snapshot h => exact Or.inr (List.mem_singleton.1 hq)
  | renames snapshot tmp h =>
      rcases List.mem_cons.1 hq with rfl | hq
      · exact Or.inr rfl
      · exact Or.inl (List.mem_singleton.1 hq)
  | _ => cases hq

/-- **Every record operation of a session** is on the record or the temporary file of one of its
    files. -/
theorem SessionMove.recordPaths {p : Params} {s s' : Session} {e : Effect}
    (h : SessionMove p s s' e) {q : FilePath} (hq : q ∈ e.recordPaths) :
    ∃ id st, s.env.files.lookup id = some st ∧
      (q = statePath st.sink.path ∨ q = tmpPath st.sink.path) := by
  cases h with
  | worker hw hmove =>
      cases hmove with
      | checkpoints hpc hcur hs hmove => exact ⟨_, _, hs, hmove.recordPaths hq⟩
      | checkpointed hpc hcur hs hmove => exact ⟨_, _, hs, hmove.recordPaths hq⟩
      | _ => cases hq
  | main hmove =>
      generalize s.main = pc at hmove
      cases hmove with
      | saving error todo hs hmove => exact ⟨_, _, hs, hmove.recordPaths hq⟩
      | saved error todo hs hmove => exact ⟨_, _, hs, hmove.recordPaths hq⟩
      | shelving hs hmove => exact ⟨_, _, hs, hmove.recordPaths hq⟩
      | shelved hs hmove => exact ⟨_, _, hs, hmove.recordPaths hq⟩
      | aborts hs he => rcases he with rfl | rfl <;> cases hq
      | drops todo hs he =>
          rcases he with rfl | rfl
          · cases hq
          · exact ⟨_, _, hs, Or.inl (List.mem_singleton.1 hq)⟩
      | dropsTmp todo hs he =>
          rcases he with rfl | rfl
          · cases hq
          · exact ⟨_, _, hs, Or.inr (List.mem_singleton.1 hq)⟩
      | _ => cases hq
  | _ => cases hq

/-- The record operation of the effect, if it is one, is on no destination of the session. -/
def OffDestinations (files : Files) (e : Effect) : Prop :=
  ∀ q ∈ e.recordPaths, ∀ id st, files.lookup id = some st → q ≠ st.sink.path

/-- The step does no record operation on a destination. -/
def RecordsApart (p : Params) (s : Session) (a : SessionAct) : Prop :=
  ∀ s' e, s.stepEffect p a = some (s', e) → OffDestinations s.env.files e

/-- The handle of the temporary file, once it is open. -/
def CheckpointPc.tmp? : CheckpointPc → Option Nat
  | .writeTmp _ tmp _ => some tmp
  | .syncTmp _ tmp => some tmp
  | .renameTmp _ tmp => some tmp
  | _ => none

/-- Names and handles of a session whose record operations keep off the destinations: every
    destination still names its sink, sinks are distinct, and no checkpoint has a sink open as its
    temporary file. -/
structure Session.Wired (s : Session) : Prop where
  named : ∀ id st, s.env.files.lookup id = some st →
    s.env.disk.node st.sink.path = some (.file st.sink.ino)
  distinct : ∀ id id' st st', s.env.files.lookup id = some st →
    s.env.files.lookup id' = some st' → st.sink.ino = st'.sink.ino → id = id'
  handles : ∀ a id pc tmp id' st, s.checkpointOf a = some (id, pc) → pc.tmp? = some tmp →
    s.env.files.lookup id' = some st → tmp ≠ st.sink.ino

theorem Session.Wired.lt {s : Session} (h : s.Wired) {id : UInt64} {st : FileState}
    (hst : s.env.files.lookup id = some st) : st.sink.ino < s.env.disk.nextIno :=
  s.env.disk.node_lt _ _ (h.named id st hst)

/-- The handle a checkpoint step ends with: the one it had, or the temporary file it has created. -/
theorem CheckpointMove.tmp_cases {blake3 : Blake3} {disk : FileSystem} {st : FileState}
    {pc pc' : CheckpointPc} {e : Effect} (h : CheckpointMove blake3 disk st pc (.goOn pc') e)
    {tmp : Nat} (htmp : pc'.tmp? = some tmp) :
    pc.tmp? = some tmp ∨
      (e = .createFile (tmpPath st.sink.path) ∧
        (e.onDisk disk).node (tmpPath st.sink.path) = some (.file tmp)) := by
  cases h with
  | snapshots h => cases htmp
  | syncs snapshot => cases htmp
  | @creates snapshot disk' ino h =>
      cases htmp
      refine Or.inr ⟨rfl, ?_⟩
      simp only [Effect.onDisk, h, Option.map_some, Option.getD_some]
      exact Disk.node_of_create h
  | writes snapshot tmp hn h => exact Or.inl htmp
  | written snapshot tmp h => exact Or.inl htmp
  | syncsTmp snapshot tmp => exact Or.inl htmp

theorem Session.Wired.step {p : Params} {s s' : Session} {e : Effect} (h : SessionMove p s s' e)
    (hoff : OffDestinations s.env.files e) (hw : s.Wired) : s'.Wired := by
  have hback : ∀ id st', s'.env.files.lookup id = some st' →
      ∃ st, s.env.files.lookup id = some st ∧ st.SameFile st' := by
    intro id st' hst'
    obtain ⟨st, hst, -, hsame⟩ := h.lookup_back hst'
    exact ⟨st, hst, hsame⟩
  have hnamed : ∀ id st', s'.env.files.lookup id = some st' →
      s'.env.disk.node st'.sink.path = some (.file st'.sink.ino) := by
    intro id st' hst'
    obtain ⟨st, hst, hsame⟩ := hback id st' hst'
    rw [hsame.sink, h.env_eq, Env.apply_disk, Effect.node_onDisk]
    · exact hw.named id st hst
    · exact fun hq => hoff _ hq id st hst rfl
  refine ⟨hnamed, ?_, ?_⟩
  · intro id id' st st' hst hst' hino
    obtain ⟨t, ht, hsame⟩ := hback id st hst
    obtain ⟨t', ht', hsame'⟩ := hback id' st' hst'
    rw [hsame.sink, hsame'.sink] at hino
    exact hw.distinct id id' t t' ht ht' hino
  · -- a handle is an old one, or the inode the temporary path has just been opened at
    intro a id pc tmp id' st' hcp htmp hst'
    obtain ⟨st, hst, hsame⟩ := hback id' st' hst'
    rw [hsame.sink]
    have hkept : ∀ b, s'.checkpointOf b = s.checkpointOf b →
        s'.checkpointOf b = some (id, pc) → tmp ≠ st.sink.ino := by
      intro b hb hcp'
      exact hw.handles b id pc tmp id' st (hb ▸ hcp') htmp hst
    cases h.turn with
    | elsewhere hplain hsamecp => exact hkept a (hsamecp a) hcp
    | begins b id0 hplain hpc' hothers =>
        by_cases hab : a = b
        · subst hab
          rw [hpc'] at hcp
          cases hcp
          cases htmp
        · exact hkept a (hothers a hab) hcp
    | goesOn b id0 pc0 pc0' st0 hst0 hmove hpc hpc' hothers =>
        by_cases hab : a = b
        · subst hab
          rw [hpc'] at hcp
          cases hcp
          rcases hmove.tmp_cases htmp with hold | ⟨he, hnode⟩
          · exact hw.handles a id pc0 tmp id' st hpc hold hst
          · rintro rfl
            have hpath := (e.onDisk s.env.disk).node_inj _ _ _ hnode (by
              rw [Effect.node_onDisk]
              · exact hw.named id' st hst
              · exact fun hq => hoff _ hq id' st hst rfl)
            exact hoff _ (by simp [he, Effect.recordPaths]) id' st hst hpath
        · exact hkept a (hothers a hab) hcp
    | finishes b id0 pc0 r st0 hst0 hmove hpc hpc' hothers =>
        by_cases hab : a = b
        · subst hab
          rw [hpc'] at hcp
          cases hcp
        · exact hkept a (hothers a hab) hcp
    | sinkWrite w c st0 done n hmem hpc hcur hst0 hfits heff hsamecp => exact hkept a (hsamecp a) hcp
    | sinkSync id0 st0 hst0 hmain heff hsamecp => exact hkept a (hsamecp a) hcp
    | removes id0 st0 hst0 path hpath hmain heff hsamecp => exact hkept a (hsamecp a) hcp


/-! ## Names kept apart -/

/-- The destination of an entry, if its path is safe. -/
def FileEntry.dest (outputDir : FilePath) (entry : FileEntry) : Option FilePath :=
  match sanitizeRelativePath entry.relativePath with
  | .ok safePath => some (outputDir ++ pathComponents safePath)
  | .error _ => none

theorem FileState.Serves.dest_eq {blake3 : Blake3} {outputDir : FilePath} {chunkSize : UInt32}
    {entry : FileEntry} {st : FileState} (h : st.Serves blake3 outputDir chunkSize entry) :
    entry.dest outputDir = some st.sink.path := by
  obtain ⟨safePath, hsan, hpath⟩ := h.path
  rw [FileEntry.dest, hsan, hpath]

/-- An entry with a destination is told by it. -/
theorem Accepted.eq_of_dest_eq {blake3 : Blake3} {outputDir : FilePath} {chunkSize : UInt32}
    {entries : List (FileEntry × EntryIo)} {st : OfferState}
    (h : Accepted blake3 outputDir chunkSize entries st) {x y : FileEntry × EntryIo}
    (hx : x ∈ entries) (hy : y ∈ entries) (heq : x.1.dest outputDir = y.1.dest outputDir)
    (hsome : (x.1.dest outputDir).isSome = true) : x = y := by
  refine h.eq_of_sanitize_eq hx hy ?_
  unfold FileEntry.dest at heq hsome
  cases hxs : sanitizeRelativePath x.1.relativePath with
  | error e =>
      rw [hxs] at hsome
      cases hsome
  | ok a =>
      cases hys : sanitizeRelativePath y.1.relativePath with
      | error e =>
          rw [hxs, hys] at heq
          cases heq
      | ok b =>
          rw [hxs, hys] at heq
          rw [dest_inj (Option.some.inj heq)]

/-- No entry's destination is the record or the temporary file of an entry. -/
def EntriesApart (outputDir : FilePath) (entries : List (FileEntry × EntryIo)) : Prop :=
  ∀ x ∈ entries, ∀ y ∈ entries, ∀ d ∈ x.1.dest outputDir, ∀ d' ∈ y.1.dest outputDir,
    d' ≠ statePath d ∧ d' ≠ tmpPath d

instance (outputDir : FilePath) (entries : List (FileEntry × EntryIo)) :
    Decidable (EntriesApart outputDir entries) := by
  unfold EntriesApart
  infer_instance

/-- No destination of the session is the record or the temporary file of one. -/
def NamesApart (files : Files) : Prop :=
  ∀ id id' st st', files.lookup id = some st → files.lookup id' = some st' →
    st'.sink.path ≠ statePath st.sink.path ∧ st'.sink.path ≠ tmpPath st.sink.path

theorem Accepted.namesApart {blake3 : Blake3} {outputDir : FilePath} {chunkSize : UInt32}
    {entries : List (FileEntry × EntryIo)} {st : OfferState}
    (h : Accepted blake3 outputDir chunkSize entries st) (hapart : EntriesApart outputDir entries) :
    NamesApart st.files := by
  intro id id' fs fs' hfs hfs'
  obtain ⟨x, hx, -, hxs⟩ := h.made id fs hfs
  obtain ⟨y, hy, -, hys⟩ := h.made id' fs' hfs'
  exact hapart x hx y hy _ hxs.dest_eq _ hys.dest_eq

/-- The sinks of an accepted offer are wired up when `Accept` is written. -/
theorem Accepted.wired {blake3 : Blake3} {outputDir : FilePath} {chunkSize : UInt32}
    {entries : List (FileEntry × EntryIo)} {st : OfferState}
    (h : Accepted blake3 outputDir chunkSize entries st) (streamCount : UInt32) :
    (Session.start st streamCount).Wired := by
  refine ⟨h.named, fun id id' fs fs' hfs hfs' => h.eq_of_ino_eq hfs hfs', ?_⟩
  intro a id pc tmp id' fs hcp
  rw [Session.checkpointOf_start] at hcp
  cases hcp

section Run

variable {p : Params} {s₀ s : Session} {as : List SessionAct}

theorem NamesApart.runs (h : NamesApart s₀.env.files) (hrun : s₀.runs p as = some s) :
    NamesApart s.env.files := by
  intro id id' st st' hst hst'
  obtain ⟨t, ht, hsame⟩ := Session.lookup_of_runs hrun hst
  obtain ⟨t', ht', hsame'⟩ := Session.lookup_of_runs hrun hst'
  rw [hsame.sink, hsame'.sink]
  exact h id id' t t' ht ht'

theorem NamesApart.offDestinations {s' : Session} {e : Effect} (h : NamesApart s.env.files)
    (hmove : SessionMove p s s' e) : OffDestinations s.env.files e := by
  intro q hq id st hst heq
  obtain ⟨id', st', hst', hwhich⟩ := hmove.recordPaths hq
  obtain ⟨hstate, htmp⟩ := h id' id st' st hst' hst
  rcases hwhich with rfl | rfl
  · exact hstate heq.symm
  · exact htmp heq.symm

theorem NamesApart.step {a : SessionAct} {s' : Session} (h : NamesApart s.env.files)
    (hstep : s.step p a = some s') : NamesApart s'.env.files := by
  have hrun : s.runs p [a] = some s' := by
    rw [Session.runs, Run.runs_cons, hstep]
    rfl
  exact h.runs hrun

/-- Where names are apart, every step of every run keeps its record operations off the
    destinations. -/
theorem NamesApart.meets (h : NamesApart s₀.env.files) (as : List SessionAct) :
    Run.Meets (Session.step p) (RecordsApart p) s₀ as :=
  Run.Meets.of_invariant (I := fun s : Session => NamesApart s.env.files)
    (fun _ _ _ hs hstep => hs.step hstep)
    (fun _ _ hs _ _ heff => hs.offDestinations (Session.stepEffect_moves heff)) h as

theorem Session.Wired.runs (hw : s₀.Wired) (h : NamesApart s₀.env.files)
    (hrun : s₀.runs p as = some s) : s.Wired := by
  refine Run.invariant_of (C := RecordsApart p) (fun s a s' hs hoff hstep => ?_) hw (h.meets as) hrun
  obtain ⟨e, heff, hmove⟩ := Session.step_moves hstep
  exact hs.step hmove (hoff s' e heff)

end Run

/-- No record operation of the step is on the destination of an entry. -/
def RecordsOffEntries (p : Params) (outputDir : FilePath) (entries : List (FileEntry × EntryIo))
    (s : Session) (a : SessionAct) : Prop :=
  ∀ s' e, s.stepEffect p a = some (s', e) → ∀ q ∈ e.recordPaths, ∀ x ∈ entries,
    x.1.dest outputDir ≠ some q

/-- Every file of the session is at the destination of an entry. -/
def SinksAtEntries (outputDir : FilePath) (entries : List (FileEntry × EntryIo)) (s : Session) :
    Prop :=
  ∀ id fs, s.env.files.lookup id = some fs → ∃ y ∈ entries, y.1.dest outputDir = some fs.sink.path

theorem Accepted.sinksAtEntries {blake3 : Blake3} {outputDir : FilePath} {chunkSize : UInt32}
    {entries : List (FileEntry × EntryIo)} {st : OfferState}
    (h : Accepted blake3 outputDir chunkSize entries st) (streamCount : UInt32) :
    SinksAtEntries outputDir entries (Session.start st streamCount) := by
  intro id fs hfs
  obtain ⟨y, hy, -, hserves⟩ := h.made id fs hfs
  exact ⟨y, hy, hserves.dest_eq⟩

namespace SinksAtEntries

variable {p : Params} {outputDir : FilePath} {entries : List (FileEntry × EntryIo)} {s s' : Session}

theorem runs {as : List SessionAct} (h : SinksAtEntries outputDir entries s)
    (hrun : s.runs p as = some s') : SinksAtEntries outputDir entries s' := by
  intro id fs hfs
  obtain ⟨fs₀, hfs₀, hsame⟩ := Session.lookup_of_runs hrun hfs
  obtain ⟨y, hy, hdest⟩ := h id fs₀ hfs₀
  exact ⟨y, hy, by rw [hdest, hsame.sink]⟩

theorem offEntries (h : SinksAtEntries outputDir entries s) (hapart : EntriesApart outputDir entries)
    (a : SessionAct) : RecordsOffEntries p outputDir entries s a := by
  intro s' e heff q hq x hx hdest
  obtain ⟨id, fs, hfs, hwhich⟩ := (Session.stepEffect_moves heff).recordPaths hq
  obtain ⟨y, hy, hpath⟩ := h id fs hfs
  obtain ⟨hstate, htmp⟩ := hapart y hy x hx _ hpath _ hdest
  rcases hwhich with rfl | rfl
  · exact hstate rfl
  · exact htmp rfl

/-- Where the entries are apart, every step of every run keeps its record operations off their
    destinations. -/
theorem meets (h : SinksAtEntries outputDir entries s) (hapart : EntriesApart outputDir entries)
    (as : List SessionAct) : Run.Meets (Session.step p) (RecordsOffEntries p outputDir entries) s as :=
  Run.Meets.of_invariant (I := SinksAtEntries outputDir entries)
    (fun t a t' ht hstep => by
      have hrun : t.runs p [a] = some t' := by
        rw [Session.runs, Run.runs_cons, hstep]
        rfl
      exact ht.runs hrun)
    (fun _ a ht => ht.offEntries hapart a) h as

end SinksAtEntries

/-- **Records apart from destinations.** In every run over an accepted offer none of whose
    destinations is the record or the temporary file of another: no record operation is on the
    destination of an entry, and, where ids are distinct too, `Ok` means that every entry's
    destination names the complete file. -/
theorem records_off_destinations {p : Params} {config : Config} {outputDir : FilePath}
    {chunkSize : UInt32} {disk : FileSystem} {entries : List (FileEntry × EntryIo)} {st : OfferState}
    (hoffer : offerLoop p.blake3 config outputDir chunkSize (.init disk) entries = .ok st)
    (hapart : EntriesApart outputDir entries) {streamCount : UInt32} {as : List SessionAct}
    {s : Session} (hrun : (Session.start st streamCount).runs p as = some s) :
    (∀ a s' e, s.stepEffect p a = some (s', e) → ∀ q ∈ e.recordPaths, ∀ x ∈ entries,
      x.1.dest outputDir ≠ some q) ∧
    ((entries.map fun x => x.1.fileId).Nodup → ∀ n, s.main = .returned (.ok n) → ∀ x ∈ entries,
      ∃ fs, s.env.files.lookup x.1.fileId = some fs ∧
        fs.Serves p.blake3 outputDir chunkSize x.1 ∧ fs.bitmap.isComplete = true ∧
        s.env.disk.node fs.sink.path = some (.file fs.sink.ino)) := by
  have hacc := accepted_offerLoop hoffer
  have hnames : NamesApart (Session.start st streamCount).env.files := hacc.namesApart hapart
  refine ⟨fun a => ((hacc.sinksAtEntries streamCount).runs hrun).offEntries hapart a,
    fun hnodup n hret x hx => ?_⟩
  · obtain ⟨fs₀, hfs₀, hserves⟩ := hacc.kept hnodup x hx
    obtain ⟨fs, hfs, hsame⟩ := Session.sameStates_of_runs hrun _ fs₀ hfs₀
    have hlanded := (Session.swept_of_runs hrun).landed [] _ fs (by rw [hret]; rfl) hfs (by simp)
    exact ⟨fs, hfs, hserves.mono hsame, hlanded.1,
      ((hacc.wired streamCount).runs hnames hrun).named _ fs hfs⟩

/-- A file `a` of one byte, alone. -/
def singleOffer : List (FileEntry × EntryIo) :=
  [(oneByteEntry 0 "a" rootA digestA, allCallsSucceed)]

/-- The file arrives, the stream ends, and `run` goes over the map. -/
def singleRun : List SessionAct :=
  [.accept, .main .next] ++ receiveOneByte 0 0 0x41 ++
    [.worker 0 .next, .close 0 .eof, .worker 0 .next, .join [0]] ++
    List.replicate 6 (.main .next)

theorem runs_singleOffer :
    ∃ st s n, offerLoop uncheckpointed.blake3 plainConfig ["out"] 65536 (.init .empty) singleOffer
        = .ok st ∧
      (Session.start st 1).runs uncheckpointed singleRun = some s ∧ s.main = .returned (.ok n) := by
  obtain ⟨st, s, hst, hs, hret⟩ := exists_run uncheckpointed singleOffer 1 singleRun
    (fun _ s => s.main.returnedOk.isSome) (by decide +kernel)
  obtain ⟨n, hn⟩ := Option.isSome_iff_exists.1 hret
  exact ⟨st, s, n, hst, hs, MainPc.returnedOk_eq_some hn⟩

/-- Both files are checkpointed when they are there, and `run` drops their records. -/
def twoFileRun : List SessionAct :=
  receiveTwoFiles (saveRecord 0)

theorem runs_twoFileOffer (n : Nat) (check : Session → Bool)
    (h : ((offerLoop shortFileHash plainConfig ["out"] 65536 (.init .empty)
      twoFileOffer).toOption.any fun st =>
        ((Session.start st 1).runs checkpointed (twoFileRun.take n)).any check) = true) :
    ∃ st s, offerLoop checkpointed.blake3 plainConfig ["out"] 65536 (.init .empty) twoFileOffer
        = .ok st ∧
      (Session.start st 1).runs checkpointed (twoFileRun.take n) = some s ∧ check s = true :=
  exists_run checkpointed twoFileOffer 1 (twoFileRun.take n) (fun _ => check) h

/-- The record of `a` is renamed into place at one step and dropped at another, and both files are
    there when `run` has returned `Ok`. -/
theorem records_off_destinations_twoFile :
    (∃ s s' : Session, s.stepEffect checkpointed (.worker 0 .next)
        = some (s', .rename (tmpPath ["out", "a"]) (statePath ["out", "a"])) ∧
      ∀ x ∈ twoFileOffer, x.1.dest ["out"] ≠ some (tmpPath ["out", "a"]) ∧
        x.1.dest ["out"] ≠ some (statePath ["out", "a"])) ∧
    (∃ s s' : Session, s.stepEffect checkpointed (.main .next)
        = some (s', .unlink (statePath ["out", "a"])) ∧
      ∀ x ∈ twoFileOffer, x.1.dest ["out"] ≠ some (statePath ["out", "a"])) ∧
    ∃ (s : Session) (n : UInt64), s.main = .returned (.ok n) ∧
      ∀ x ∈ twoFileOffer, ∃ fs, s.env.files.lookup x.1.fileId = some fs ∧
        fs.Serves shortFileHash ["out"] 65536 x.1 ∧ fs.bitmap.isComplete = true ∧
        s.env.disk.node fs.sink.path = some (.file fs.sink.ino) := by
  refine ⟨?_, ?_, ?_⟩
  · obtain ⟨st, s, hst, hs, hcheck⟩ := runs_twoFileOffer 21
      (fun s => (s.stepEffect checkpointed (.worker 0 .next)).any fun x =>
        x.2 = .rename (tmpPath ["out", "a"]) (statePath ["out", "a"])) (by decide +kernel)
    obtain ⟨⟨s', e⟩, heff, he⟩ := (Option.any_eq_true _ _).1 hcheck
    obtain rfl := of_decide_eq_true he
    have hoff := (records_off_destinations hst (by decide +kernel) hs).1 _ s' _ heff
    exact ⟨s, s', heff, fun x hx => ⟨hoff _ (by simp [Effect.recordPaths]) x hx,
      hoff _ (by simp [Effect.recordPaths]) x hx⟩⟩
  · obtain ⟨st, s, hst, hs, hcheck⟩ := runs_twoFileOffer 49
      (fun s => (s.stepEffect checkpointed (.main .next)).any fun x =>
        x.2 = .unlink (statePath ["out", "a"])) (by decide +kernel)
    obtain ⟨⟨s', e⟩, heff, he⟩ := (Option.any_eq_true _ _).1 hcheck
    obtain rfl := of_decide_eq_true he
    have hoff := (records_off_destinations hst (by decide +kernel) hs).1 _ s' _ heff
    exact ⟨s, s', heff, fun x hx => hoff _ (by simp [Effect.recordPaths]) x hx⟩
  · obtain ⟨st, s, hst, hs, hret⟩ := runs_twoFileOffer twoFileRun.length
      (fun s => s.main.returnedOk.isSome) (by decide +kernel)
    obtain ⟨n, hn⟩ := Option.isSome_iff_exists.1 hret
    have hmain := MainPc.returnedOk_eq_some hn
    exact ⟨s, n, hmain,
      (records_off_destinations hst (by decide +kernel) hs).2 (by decide) n hmain⟩

/-- A file `a`, and a file that has the name of the temporary file of its record. -/
def sharedNameOffer : List (FileEntry × EntryIo) :=
  [(oneByteEntry 0 "a" rootA digestA, allCallsSucceed),
    (oneByteEntry 1 "a.tmp" rootB digestB, allCallsSucceed)]

def sharedNameRun : List SessionAct :=
  receiveTwoFiles [.worker 0 .next]

/-- `run` returns `Ok` after `discard` of the first file has removed the second. -/
theorem discard_removes_destination :
    ¬ ∀ (p : Params) (config : Config) (outputDir : FilePath) (chunkSize : UInt32)
      (disk : FileSystem) (entries : List (FileEntry × EntryIo)) (st : OfferState)
      (streamCount : UInt32) (as : List SessionAct) (s : Session) (n : UInt64),
      offerLoop p.blake3 config outputDir chunkSize (.init disk) entries = .ok st →
      (entries.map fun x => x.1.fileId).Nodup →
      (Session.start st streamCount).runs p as = some s → s.main = .returned (.ok n) →
      ∀ x ∈ entries, ∀ d, x.1.dest outputDir = some d → s.env.disk.pathExists d = true := by
  intro hclaim
  obtain ⟨st, s, hst, hs, hcheck⟩ := exists_run uncheckpointed sharedNameOffer 1 sharedNameRun
    (fun _ s => s.main.returnedOk.isSome && !s.env.disk.pathExists ["out", "a.tmp"])
    (by decide +kernel)
  rw [Bool.and_eq_true, Bool.not_eq_true'] at hcheck
  obtain ⟨n, hn⟩ := Option.isSome_iff_exists.1 hcheck.1
  have hexists := hclaim _ _ _ _ _ _ st 1 _ s n hst (by decide) hs (MainPc.returnedOk_eq_some hn)
    (oneByteEntry 1 "a.tmp" rootB digestB, allCallsSucceed) (by simp [sharedNameOffer])
    ["out", "a.tmp"] (by decide +kernel)
  rw [hexists] at hcheck
  exact absurd hcheck.2 (by simp)

end AetherLink
