import AetherLink.Proofs.Durable
import AetherLink.Proofs.Paths

set_option autoImplicit false

/-! # A receiver keeps to the files it is offered

The sender chooses the paths of an offer and what arrives for it, and the receiver creates, cuts,
writes, renames and removes files. Over any number of sessions, each with an offer of its own that is
accepted or refused, ended or killed at any point, a name that no offered file uses keeps the file it
names (`Preserved`); every name an offered file uses is below the directory it was offered into; and
no directory is taken away.

The receiver writes through handles, so the names alone do not say it: what carries the invariant is
that no name outside leads to an open handle (`Session.Avoids`). The temporary file of a record is
opened under one name and renamed to another while its handle is open. -/

namespace AetherLink

open Bytes Storage

/-! ## The names of an offer -/

/-- `q` is strictly below `dir`, and every step down to it is a plain name. -/
def Below (dir q : FilePath) : Prop :=
  ∃ rel, rel ≠ [] ∧ (∀ c ∈ rel, c ≠ "" ∧ c ≠ "." ∧ c ≠ "..") ∧ q = dir ++ rel

/-- A file beside one that is below is below. -/
theorem Below.withFileName {dir p : FilePath} (h : Below dir p) {name : String}
    (hname : name ≠ "" ∧ name ≠ "." ∧ name ≠ "..") : Below dir (withFileName p name) := by
  obtain ⟨rel, hne, hnames, rfl⟩ := h
  refine ⟨rel.dropLast ++ [name], by simp, fun c hc => ?_, ?_⟩
  · rcases List.mem_append.1 hc with hc | hc
    · exact hnames c (List.mem_of_mem_dropLast hc)
    · rw [List.mem_singleton.1 hc]
      exact hname
  · rw [AetherLink.withFileName, List.dropLast_append_of_ne_nil hne, List.append_assoc]

/-- A long name is no special one. -/
theorem plain_of_length {name : String} (h : 2 < name.toList.length) :
    name ≠ "" ∧ name ≠ "." ∧ name ≠ ".." := by
  refine ⟨?_, ?_, ?_⟩ <;>
  · rintro rfl
    revert h
    decide

/-- The names under which a session keeps what it has of an entry: its destination, the record
    beside it, and the temporary file the record is written to. -/
def FileEntry.Uses (outputDir : FilePath) (entry : FileEntry) (q : FilePath) : Prop :=
  ∃ dest, entry.dest outputDir = some dest ∧ (q = dest ∨ q = statePath dest ∨ q = tmpPath dest)

/-- A safe path is below the output directory. -/
theorem below_dest {outputDir : FilePath} {entry : FileEntry} {dest : FilePath}
    (h : entry.dest outputDir = some dest) : Named dest ∧ Below outputDir dest := by
  unfold FileEntry.dest at h
  split at h
  · next safePath hsan =>
      rw [Option.some.injEq] at h
      subst h
      obtain ⟨parts, hplain, -, hkept, rfl⟩ := sanitizeRelativePath_eq_ok_iff.1 hsan
      have hsafe := hkept.safePath hplain
      refine ⟨named_dest outputDir hsan, _, hsafe.components_ne_nil, fun c hc => ?_, rfl⟩
      have hc := hsafe.components c hc
      exact ⟨hc.nonempty, hc.notDot, hc.notParent⟩
  · cases h

/-- **Every name an entry uses is below the output directory.** -/
theorem FileEntry.Uses.below {outputDir : FilePath} {entry : FileEntry} {q : FilePath}
    (h : entry.Uses outputDir q) : Below outputDir q := by
  obtain ⟨dest, hdest, hq⟩ := h
  obtain ⟨hnamed, hbelow⟩ := below_dest hdest
  rcases hq with rfl | rfl | rfl
  · exact hbelow
  · refine hbelow.withFileName (plain_of_length ?_)
    rw [String.toList_append, List.length_append]
    exact Nat.lt_add_left _ (by decide)
  · rw [tmpPath_eq hnamed.2]
    refine hbelow.withFileName (plain_of_length ?_)
    rw [String.toList_append, List.length_append]
    exact Nat.lt_add_left _ (by decide)

/-- A name some entry of the offer uses. -/
def Offering.Uses (o : Offering) (q : FilePath) : Prop :=
  ∃ x ∈ o.entries, x.1.Uses o.outputDir q

/-- A directory on the way to a destination of the offer. -/
def Offering.LeadsThrough (o : Offering) (q : FilePath) : Prop :=
  ∃ x ∈ o.entries, ∃ dest, x.1.dest o.outputDir = some dest ∧ q <+: dest.dropLast

/-! ## Going over an offer -/

/-- `SinkFile::create` makes directories on the way to the file, and takes none away. -/
theorem SinkFile.dirsTo_create (fs : FileSystem) (path : FilePath) (size : UInt64)
    (chunkSize : UInt32) (io : SinkIo) :
    Disk.DirsTo path.dropLast fs (SinkFile.create fs path size chunkSize io).1 := by
  have hall : Disk.DirsTo path.dropLast fs (fs.mkdirAll [] path.dropLast).1 :=
    Disk.dirsTo_mkdirAll fs [] path.dropLast
  cases io with
  | mkdirFails n =>
      exact (Disk.dirsTo_mkdirAll fs [] (path.dropLast.take n)).mono (List.take_prefix _ _)
  | openFails => exact hall
  | opened pre =>
      simp only [create]
      rcases hmk : fs.mkdirAll [] path.dropLast with ⟨made, okay⟩
      rw [hmk] at hall
      cases okay with
      | false => exact hall
      | true =>
          cases hopen : made.openRW path with
          | none => simpa only [hopen] using hall
          | some r =>
              obtain ⟨opened, ino⟩ := r
              have hreserved : Disk.DirsTo path.dropLast fs
                  (preallocate opened ino size.toNat pre).1 := by
                refine hall.trans (.of_iff fun q => ?_)
                rw [preallocate_fst, Disk.node_writes]
                exact Disk.dir_openRW hopen q
              rcases hpre : preallocate opened ino size.toNat pre with ⟨reserved, res⟩
              rw [hpre] at hreserved
              cases res with
              | error e => simpa only [hopen, hpre] using hreserved
              | ok u =>
                  cases hl : ChunkLayout.new size chunkSize with
                  | error e => simpa only [hopen, hpre] using hreserved
                  | ok layout => simpa only [hopen, hpre] using hreserved

/-- **Loop rule for the disk.** The offer loop does to the disk what creating destinations of its
    entries does, however it ends. -/
theorem leftBy_offerLoop {R : FileSystem → FileSystem → Prop} (hrefl : ∀ d, R d d)
    (htrans : ∀ d e f, R d e → R e f → R d f) (blake3 : Blake3) (config : Config)
    (outputDir : FilePath) (chunkSize : UInt32) {xs : List (FileEntry × EntryIo)}
    (hcreate : ∀ x ∈ xs, ∀ dest, x.1.dest outputDir = some dest → ∀ d,
      R d (SinkFile.create d dest x.1.sizeBytes chunkSize x.2.sink).1) (st : OfferState) :
    R st.disk (leftBy (offerLoop blake3 config outputDir chunkSize st xs)) := by
  induction xs generalizing st with
  | nil => exact hrefl st.disk
  | cons x xs ih =>
      have hhead : R st.disk (leftBy (offerEntry blake3 config outputDir chunkSize st x)) := by
        rcases leftBy_offerEntry blake3 config outputDir chunkSize st x with heq | ⟨c, hc, heq⟩
        · rw [heq]
          exact hrefl st.disk
        · rw [heq]
          exact hcreate x List.mem_cons_self c.dest (checkEntry_ok hc).1.dest_entry st.disk
      rw [offerLoop, List.foldlM_cons]
      cases hx : offerEntry blake3 config outputDir chunkSize st x with
      | error r =>
          rw [hx] at hhead
          exact hhead
      | ok st' =>
          rw [hx] at hhead
          exact htrans _ _ _ hhead (ih (fun y hy => hcreate y (List.mem_cons_of_mem x hy)) st')

section Answer

variable {o : Offering} {q : FilePath}

/-- An offer touches no name it does not use. -/
theorem Offering.untouched (hq : ¬ o.Uses q) (blake3 : Blake3) (d : FileSystem) :
    Untouched d (leftBy (o.answer blake3 d)) q := by
  refine leftBy_offerLoop (R := fun d d' => Untouched d d' q) (fun d => .refl d q)
    (fun _ _ _ h h' => h.trans h') blake3 o.config o.outputDir o.chunkSize
    (fun x hx dest hdest d => SinkFile.create_untouched d _ _ _ ?_) (.init d)
  rintro rfl
  exact hq ⟨x, hx, q, hdest, Or.inl rfl⟩

/-- An offer takes no directory away. -/
theorem Offering.dir_stays (blake3 : Blake3) {d : FileSystem} (hdir : d.node q = some .dir) :
    (leftBy (o.answer blake3 d)).node q = some .dir :=
  leftBy_offerLoop (R := fun d d' => d.node q = some .dir → d'.node q = some .dir)
    (fun _ h => h) (fun _ _ _ h h' hd => h' (h hd)) blake3 o.config o.outputDir o.chunkSize
    (fun _ _ dest _ d => (SinkFile.dirsTo_create d dest _ _ _).stay q) (.init d) hdir

/-- An offer makes no directory but on the way to its destinations. -/
theorem Offering.dir_made (hq : ¬ o.LeadsThrough q) (blake3 : Blake3) {d : FileSystem}
    (hdir : (leftBy (o.answer blake3 d)).node q = some .dir) : d.node q = some .dir := by
  refine leftBy_offerLoop (R := fun d d' => d'.node q = some .dir → d.node q = some .dir)
    (fun _ h => h) (fun _ _ _ h h' hd => h (h' hd)) blake3 o.config o.outputDir o.chunkSize
    (fun x hx dest hdest d hd => ?_) (.init d) hdir
  rcases (SinkFile.dirsTo_create d dest _ _ _).made q hd with hold | hpre
  · exact hold
  · exact absurd ⟨x, hx, dest, hdest, hpre⟩ hq

end Answer

/-! ## One session -/

/-- A handle after a step is one from before it, or the temporary file that has just been created. -/
theorem SessionMove.tmp_cases {p : Params} {s s' : Session} {e : Effect} (h : SessionMove p s s' e)
    {a : Option Nat} {id : UInt64} {pc : CheckpointPc} {tmp : Nat}
    (hcp : s'.checkpointOf a = some (id, pc)) (htmp : pc.tmp? = some tmp) :
    (∃ pc₀, s.checkpointOf a = some (id, pc₀) ∧ pc₀.tmp? = some tmp) ∨
      ∃ st, s.env.files.lookup id = some st ∧
        s'.env.disk.node (tmpPath st.sink.path) = some (.file tmp) := by
  have hkept : s'.checkpointOf a = s.checkpointOf a →
      ∃ pc₀, s.checkpointOf a = some (id, pc₀) ∧ pc₀.tmp? = some tmp :=
    fun hsame => ⟨pc, hsame ▸ hcp, htmp⟩
  cases h.turn with
  | elsewhere hplain hsame => exact Or.inl (hkept (hsame a))
  | begins b id0 hplain hpc' hothers =>
      by_cases hab : a = b
      · subst hab
        rw [hpc'] at hcp
        cases hcp
        cases htmp
      · exact Or.inl (hkept (hothers a hab))
  | goesOn b id0 pc0 pc0' st hst hmove hpc hpc' hothers =>
      by_cases hab : a = b
      · subst hab
        rw [hpc'] at hcp
        cases hcp
        rcases hmove.tmp_cases htmp with hold | ⟨-, hnode⟩
        · exact Or.inl ⟨pc0, hpc, hold⟩
        · refine Or.inr ⟨st, hst, ?_⟩
          rwa [h.env_eq, Env.apply_disk]
      · exact Or.inl (hkept (hothers a hab))
  | finishes b id0 pc0 r st hst hmove hpc hpc' hothers =>
      by_cases hab : a = b
      · subst hab
        rw [hpc'] at hcp
        cases hcp
      · exact Or.inl (hkept (hothers a hab))
  | sinkWrite w c st done n hw hpc hcur hst hfits heff hsame => exact Or.inl (hkept (hsame a))
  | sinkSync id0 st hst hmain heff hsame => exact Or.inl (hkept (hsame a))
  | removes id0 st hst path hpath hmain heff hsame => exact Or.inl (hkept (hsame a))

/-- No file of the session uses `q`, and `q` leads to no handle that is open. -/
structure Session.Avoids (q : FilePath) (s : Session) : Prop where
  names : ∀ id st, s.env.files.lookup id = some st →
    q ≠ st.sink.path ∧ q ≠ statePath st.sink.path ∧ q ≠ tmpPath st.sink.path
  sinks : ∀ id st, s.env.files.lookup id = some st →
    s.env.disk.node q ≠ some (.file st.sink.ino)
  tmps : ∀ a id pc tmp, s.checkpointOf a = some (id, pc) → pc.tmp? = some tmp →
    s.env.disk.node q ≠ some (.file tmp)

/-- A checkpoint spares a name that is not its file's and does not lead to its handle. -/
theorem CheckpointMove.spares_of_handle {blake3 : Blake3} {d : FileSystem} {st : FileState}
    {pc : CheckpointPc} {next : CheckpointNext} {e : Effect} {q : FilePath}
    (h : CheckpointMove blake3 d st pc next e) (hstate : q ≠ statePath st.sink.path)
    (htmp : q ≠ tmpPath st.sink.path)
    (hhandle : ∀ tmp, pc.tmp? = some tmp → d.node q ≠ some (.file tmp)) : e.Spares d q := by
  cases h with
  | creates snap h => exact Effect.spares_createFile htmp
  | writes snap tmp hn h => exact Effect.spares_pwrite (hhandle tmp rfl)
  | syncs snap => exact Effect.spares_fsync
  | syncsTmp snap tmp => exact Effect.spares_fsync
  | renames snap tmp h => exact Effect.spares_rename htmp hstate
  | _ => exact plain_quiet.spares List.not_mem_nil

namespace Session.Avoids

variable {p : Params} {s s' : Session} {e : Effect} {q : FilePath}

/-- **No step touches the name.** -/
theorem untouched (h : s.Avoids q) (hmove : SessionMove p s s' e) :
    Untouched s.env.disk s'.env.disk q := by
  rw [hmove.env_eq, Env.apply_disk]
  cases hmove.turn with
  | elsewhere hplain hsame => exact hplain.untouched q
  | begins a id hplain hpc' hothers => exact hplain.untouched q
  | goesOn a id pc pc' st hst hcp hpc hpc' hothers =>
      obtain ⟨-, hstate, htmp⟩ := h.names id st hst
      exact (hcp.spares_of_handle hstate htmp fun tmp => h.tmps a id pc tmp hpc).untouched
  | finishes a id pc r st hst hcp hpc hpc' hothers =>
      obtain ⟨-, hstate, htmp⟩ := h.names id st hst
      exact (hcp.spares_of_handle hstate htmp fun tmp => h.tmps a id pc tmp hpc).untouched
  | sinkWrite w c st done n hw hpc hcur hst hfits heff hsame =>
      rw [heff]
      exact (Effect.spares_pwrite (h.sinks c.fileId st hst)).untouched
  | sinkSync id st hst hmain heff hsame =>
      rw [heff]
      exact Effect.spares_fsync.untouched
  | removes id st hst path hpath hmain heff hsame =>
      obtain ⟨-, hstate, htmp⟩ := h.names id st hst
      rw [heff]
      refine (Effect.spares_unlink ?_).untouched
      rcases hpath with rfl | rfl
      · exact hstate
      · exact htmp

theorem step (h : s.Avoids q) (hmove : SessionMove p s s' e) : s'.Avoids q := by
  have huntouched := h.untouched hmove
  have hback : ∀ id st', s'.env.files.lookup id = some st' →
      ∃ st, s.env.files.lookup id = some st ∧ st'.sink = st.sink := by
    intro id st' hst'
    obtain ⟨st, hst, -, hsame⟩ := hmove.lookup_back hst'
    exact ⟨st, hst, hsame.sink⟩
  refine ⟨fun id st' hst' => ?_, fun id st' hst' hnode => ?_, fun a id pc tmp hcp htmp hnode => ?_⟩
  · obtain ⟨st, hst, hsink⟩ := hback id st' hst'
    rw [hsink]
    exact h.names id st hst
  · obtain ⟨st, hst, hsink⟩ := hback id st' hst'
    rw [hsink] at hnode
    exact h.sinks id st hst ((huntouched.node _).1 hnode)
  · rcases hmove.tmp_cases hcp htmp with ⟨pc₀, hpc, htmp₀⟩ | ⟨st, hst, hcreated⟩
    · exact h.tmps a id pc₀ tmp hpc htmp₀ ((huntouched.node _).1 hnode)
    · exact (h.names id st hst).2.2 (s'.env.disk.node_inj _ _ _ hnode hcreated)

end Session.Avoids

/-- A session over an offer starts with no handle open but its sinks. -/
theorem Offering.avoids {o : Offering} {q : FilePath} (hq : ¬ o.Uses q) {blake3 : Blake3}
    {d : FileSystem} {st : OfferState} (hst : o.answer blake3 d = .ok st) :
    (Session.start st o.streamCount).Avoids q := by
  have hacc := accepted_offerLoop hst
  have hnames : ∀ id fs, st.files.lookup id = some fs →
      q ≠ fs.sink.path ∧ q ≠ statePath fs.sink.path ∧ q ≠ tmpPath fs.sink.path := by
    intro id fs hfs
    obtain ⟨x, hx, -, hserves⟩ := hacc.made id fs hfs
    refine ⟨fun heq => hq ?_, fun heq => hq ?_, fun heq => hq ?_⟩
    · exact ⟨x, hx, _, hserves.dest_eq, Or.inl heq⟩
    · exact ⟨x, hx, _, hserves.dest_eq, Or.inr (Or.inl heq)⟩
    · exact ⟨x, hx, _, hserves.dest_eq, Or.inr (Or.inr heq)⟩
  refine ⟨hnames, fun id fs hfs hnode => ?_, fun a id pc tmp hcp => ?_⟩
  · exact (hnames id fs hfs).1 (st.disk.node_inj _ _ _ hnode (hacc.named id fs hfs))
  · rw [Session.checkpointOf_start] at hcp
    cases hcp

/-! ## One session after another -/

/-- The name `q` names the file it named, if any; if its writes had been flushed, or the power has
    not failed since, the file is as it was. -/
structure Preserved (as : List DeviceAct) (d d' : FileSystem) (q : FilePath) : Prop where
  node : ∀ i, d'.node q = some (.file i) ↔ d.node q = some (.file i)
  flushed : ∀ i, d.node q = some (.file i) → d.pending i = [] →
    d'.data i = d.data i ∧ d'.pending i = []
  powered : (∀ mask, DeviceAct.powerLoss mask ∉ as) →
    ∀ i, d.node q = some (.file i) → d'.data i = d.data i

namespace Preserved

variable {as : List DeviceAct} {d d' d'' : FileSystem} {q : FilePath}

theorem refl (d : FileSystem) (q : FilePath) : Preserved [] d d q :=
  ⟨fun _ => Iff.rfl, fun _ _ hnil => ⟨rfl, hnil⟩, fun _ _ _ => rfl⟩

/-- A step that touches nothing of the name. -/
theorem untouched (h : Preserved as d d' q) (h' : Untouched d' d'' q) (a : DeviceAct) :
    Preserved (as ++ [a]) d d'' q := by
  refine ⟨fun i => (h'.node i).trans (h.node i), fun i hi hnil => ?_, fun hcut i hi => ?_⟩
  · obtain ⟨hdata, hpending⟩ := h.flushed i hi hnil
    have hi' := (h.node i).2 hi
    exact ⟨(h'.data i hi').trans hdata, h'.pending i hi' hpending⟩
  · have hdata := h.powered (fun mask hmem => hcut mask (List.mem_append_left _ hmem)) i hi
    exact (h'.data i ((h.node i).2 hi)).trans hdata

/-- A power loss keeps what was flushed. -/
theorem crash (h : Preserved as d d' q) (mask : Nat → Nat → Bool) :
    Preserved (as ++ [.powerLoss mask]) d (d'.crash mask) q := by
  refine ⟨h.node, fun i hi hnil => ?_, fun hcut => ?_⟩
  · obtain ⟨hdata, hpending⟩ := h.flushed i hi hnil
    refine ⟨?_, rfl⟩
    rw [← hdata, Disk.data_eq_durable d', hpending]
    show applyAll (d'.durable i) (keepMasked (mask i) (d'.pending i)) = _
    rw [hpending]
    rfl
  · exact absurd (List.mem_append_right as List.mem_cons_self) (hcut mask)

end Preserved

/-- The name is as it was, and the session in progress avoids it. -/
structure Device.Avoids (d : FileSystem) (q : FilePath) (past : List DeviceAct) (w : Device) :
    Prop where
  preserved : Preserved past d w.disk q
  session : ∀ p s, w = .receiving p s → s.Avoids q

theorem Device.Avoids.of_idle {d disk : FileSystem} {q : FilePath} {past : List DeviceAct}
    (h : Preserved past d disk q) : (Device.idle disk).Avoids d q past :=
  ⟨h, fun p s heq => by cases heq⟩

/-- **Every step of a device leaves a name alone that its offers do not use.** -/
theorem Device.Avoids.step {blake3 : Blake3} {d : FileSystem} {q : FilePath}
    {past : List DeviceAct} {w w' : Device} {a : DeviceAct} (h : w.Avoids d q past)
    (ha : ∀ o, a = .offer o → ¬ o.Uses q) (hstep : w.step blake3 a = some w') :
    w'.Avoids d q (past ++ [a]) := by
  cases Device.step_moves hstep with
  | @refused disk o r hr =>
      have huntouched := Offering.untouched (ha o rfl) blake3 disk
      rw [hr] at huntouched
      exact .of_idle (h.preserved.untouched huntouched _)
  | @accepted disk o st hst =>
      have huntouched := Offering.untouched (ha o rfl) blake3 disk
      rw [hst] at huntouched
      refine ⟨h.preserved.untouched huntouched _, fun p s heq => ?_⟩
      cases heq
      exact Offering.avoids (ha o rfl) hst
  | @session p s s' b e heff hmove =>
      have havoids := h.session p s rfl
      refine ⟨h.preserved.untouched (havoids.untouched hmove) _, fun p' t heq => ?_⟩
      cases heq
      exact havoids.step hmove
  | stops p s => exact .of_idle (h.preserved.untouched (.refl _ q) _)
  | losesPower w mask => exact .of_idle (h.preserved.crash mask)

/-- As a directory the name is what it was, or on the way to a destination. -/
structure Device.Leads (d : FileSystem) (q : FilePath) (past : List DeviceAct) (w : Device) :
    Prop where
  stay : d.node q = some .dir → w.disk.node q = some .dir
  made : w.disk.node q = some .dir →
    d.node q = some .dir ∨ ∃ o, DeviceAct.offer o ∈ past ∧ o.LeadsThrough q

theorem Device.Leads.step {blake3 : Blake3} {d : FileSystem} {q : FilePath}
    {past : List DeviceAct} {w w' : Device} {a : DeviceAct} (h : w.Leads d q past)
    (hstep : w.step blake3 a = some w') : w'.Leads d q (past ++ [a]) := by
  -- a step that makes no directory of the name and takes none away
  have hsame : (w'.disk.node q = some .dir ↔ w.disk.node q = some .dir) →
      w'.Leads d q (past ++ [a]) := by
    intro hiff
    refine ⟨fun hdir => hiff.2 (h.stay hdir), fun hdir => ?_⟩
    refine (h.made (hiff.1 hdir)).imp_right fun ⟨o, hmem, ho⟩ => ?_
    exact ⟨o, List.mem_append_left _ hmem, ho⟩
  have hoffer : ∀ o, a = .offer o → w'.disk = leftBy (o.answer blake3 w.disk) →
      w'.Leads d q (past ++ [a]) := by
    intro o ha hleft
    by_cases hq : o.LeadsThrough q
    · refine ⟨fun hdir => ?_, fun _ => Or.inr ⟨o, ?_, hq⟩⟩
      · rw [hleft]
        exact Offering.dir_stays blake3 (h.stay hdir)
      · rw [ha]
        exact List.mem_append_right _ List.mem_cons_self
    · refine hsame ?_
      rw [hleft]
      exact ⟨Offering.dir_made hq blake3, Offering.dir_stays blake3⟩
  cases Device.step_moves hstep with
  | @refused disk o r hr => exact hoffer o rfl (congrArg leftBy hr.symm)
  | @accepted disk o st hst => exact hoffer o rfl (congrArg leftBy hst.symm)
  | @session p s s' b e heff hmove =>
      refine hsame ?_
      rw [Device.disk, Device.disk, hmove.env_eq, Env.apply_disk]
      exact e.dir_onDisk s.env.disk q
  | stops p s => exact hsame Iff.rfl
  | losesPower w mask => exact hsame Iff.rfl

/-- What a history of receives may have done to a disk. -/
structure Confined (as : List DeviceAct) (d d' : FileSystem) : Prop where
  /-- a name is as it was, or it is used by an offered file and below the directory of the offer -/
  files : ∀ q, Preserved as d d' q ∨
    ∃ o, DeviceAct.offer o ∈ as ∧ o.Uses q ∧ Below o.outputDir q
  /-- no directory is taken away -/
  dirsStay : ∀ q, d.node q = some .dir → d'.node q = some .dir
  /-- a new directory is on the way to an offered file -/
  dirsMade : ∀ q, d'.node q = some .dir →
    d.node q = some .dir ∨ ∃ o, DeviceAct.offer o ∈ as ∧ o.LeadsThrough q

/-- **A receiver keeps to the files it is offered**, over any history of offers, accepted or refused,
    sessions with any sender, any order of steps and any outcome of the calls, each ended or killed
    at any point, and power losses. -/
theorem receives_stay_confined {blake3 : Blake3} {disk : FileSystem} {as : List DeviceAct}
    {w : Device} (hrun : (Device.idle disk).runs blake3 as = some w) :
    Confined as disk w.disk := by
  have hleads : ∀ q, w.Leads disk q as := by
    intro q
    have hstart : (Device.idle disk).Leads disk q [] := ⟨fun hdir => hdir, Or.inl⟩
    exact Run.invariant_history (I := fun past w => Device.Leads disk q past w) (P := fun _ => True)
      (fun past s a s' h _ hstep => h.step hstep) hstart (fun _ _ => trivial) hrun
  refine ⟨fun q => ?_, fun q => (hleads q).stay, fun q => (hleads q).made⟩
  by_cases hq : ∃ o, DeviceAct.offer o ∈ as ∧ o.Uses q
  · obtain ⟨o, ho, x, hx, huses⟩ := hq
    exact Or.inr ⟨o, ho, ⟨x, hx, huses⟩, huses.below⟩
  · have hstart : (Device.idle disk).Avoids disk q [] := .of_idle (.refl disk q)
    have hend : w.Avoids disk q as :=
      Run.invariant_history (I := fun past w => Device.Avoids disk q past w)
        (P := fun a => ∀ o, a = .offer o → ¬ o.Uses q)
        (fun past s a s' h ha hstep => h.step ha hstep) hstart
        (fun a ha o heq huses => hq ⟨o, heq ▸ ha, huses⟩) hrun
    exact Or.inl hend.preserved

/-- A disk with a flushed file outside the output directory. -/
def besideOut : FileSystem :=
  ((Disk.empty.mkfile ["kept"]).write 0 (.pwrite 0 [0x42])).sync 0

theorem receives_stay_confined_cut :
    ∃ w, (Device.idle besideOut).runs shortFileHash recordedThenCut = some w ∧
      Confined recordedThenCut besideOut w.disk := by
  have hrun : ((Device.idle besideOut).runs shortFileHash recordedThenCut).isSome = true := by
    decide +kernel
  obtain ⟨w, hw⟩ := Option.isSome_iff_exists.1 hrun
  exact ⟨w, hw, receives_stay_confined hw⟩

end AetherLink
