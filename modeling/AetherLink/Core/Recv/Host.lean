import AetherLink.Core.Recv.Device

set_option autoImplicit false

/-! # Receptions in one process

`run` does not wait for its workers when it returns an error from the loop that accepts their
streams: they are detached and run on, and the process may receive the next offer beside them. A
`Host` is the disk and the receptions since the process started. Only the last of them is still in
`run`; of the others, workers may be left. Killing the process ends them all.

Beside such workers the offer loop is not one step. `openEntry` falls into its accesses to the disk:
`SinkFile::create`, the look at the record, and the verification of one chunk after another.
Undisturbed, they come to what the offer loop makes of the offer (`Reception.comes_answer`). -/

namespace AetherLink

open Storage

/-- Where the offer loop is. -/
inductive OfferPc where
  /-- between two entries -/
  | next
  /-- the staging file is open; about to look for its record -/
  | loading (x : FileEntry × EntryIo) (c : Checked) (sink : SinkFile) (preexisting : Bool)
  /-- about to verify chunk `index` of what the staging file holds -/
  | rebuilding (x : FileEntry × EntryIo) (c : Checked) (sink : SinkFile) (bitmap : ChunkBitmap)
      (index : Nat)
  /-- about to enter the file into the session -/
  | noting (x : FileEntry × EntryIo) (c : Checked) (sink : SinkFile) (bitmap : ChunkBitmap)

/-- How far `run` is with an offer. -/
inductive Phase where
  /-- `st` is what the loop has made of the entries before `todo`; its `disk` is not used -/
  | offered (st : OfferState) (pc : OfferPc) (todo : List (FileEntry × EntryIo))
  /-- `run` has returned before `Accept` -/
  | refused (error : Error)
  | receiving (p : Params) (session : Session)

/-- An offer, the entries of it that `run` has opened, the last one first, and how far it is. -/
structure Reception where
  offering : Offering
  opened : List Checked
  phase : Phase

structure Host where
  disk : FileSystem
  /-- the oldest first -/
  receptions : List Reception

inductive ReceptionAct where
  /-- the offer loop takes a step -/
  | advance
  /-- `Accept` cannot be written -/
  | unsent (error : Error)
  /-- the session takes a step -/
  | session (a : SessionAct)

inductive HostAct where
  /-- a sender connects and makes its offer -/
  | offer (o : Offering)
  | reception (i : Nat) (a : ReceptionAct)
  /-- the process is killed -/
  | kill

/-- The session on a disk that others write to as well. -/
def Session.onDisk (s : Session) (disk : FileSystem) : Session :=
  { s with env := { s.env with disk := disk } }

namespace Session

variable (s : Session) (d d' : FileSystem)

@[simp] theorem onDisk_disk : (s.onDisk d).env.disk = d := rfl

@[simp] theorem onDisk_files : (s.onDisk d).env.files = s.env.files := rfl

@[simp] theorem onDisk_workers : (s.onDisk d).workers = s.workers := rfl

@[simp] theorem onDisk_main : (s.onDisk d).main = s.main := rfl

@[simp] theorem onDisk_onDisk : (s.onDisk d).onDisk d' = s.onDisk d' := rfl

@[simp] theorem onDisk_self : s.onDisk s.env.disk = s := rfl

end Session

/-- The file of a checked entry is entered into the session. -/
def OfferState.note (st : OfferState) (chunkSize : UInt32) (entry : FileEntry) (c : Checked)
    (sink : SinkFile) (bitmap : ChunkBitmap) : OfferState :=
  { st with
    files := st.files.insert entry.fileId (c.fileState sink bitmap)
    accepted := st.accepted ++ [entry.fileId]
    progress := st.progress ++ [{ fileId := entry.fileId, haveBitmap := bitmap.asBytes }]
    totalBytes := st.totalBytes + entry.sizeBytes
    resumedBytes := st.resumedBytes + UInt64.ofNat bitmap.setCount * chunkSize.toUInt64 }

namespace Reception

def start (o : Offering) : Reception :=
  { offering := o, opened := [], phase := .offered (.init .empty) .next o.entries }

/-- Whether `run` has returned. -/
def returned (r : Reception) : Bool :=
  match r.phase with
  | .offered _ _ _ => false
  | .refused _ => true
  | .receiving _ s =>
      match s.main with
      | .returned _ => true
      | _ => false

/-- Where the loop goes from the staging file of an entry. -/
def consult (blake3 : Blake3) (resume : Bool) (disk : FileSystem) (x : FileEntry × EntryIo)
    (c : Checked) (sink : SinkFile) (preexisting : Bool) : OfferPc :=
  if !resume then .noting x c sink (ChunkBitmap.new c.layout.count)
  else match (if x.2.recordReadable then Resume.load blake3 disk c.dest c.key else none) with
    | some recorded => .noting x c sink recorded
    | none =>
        if preexisting then .rebuilding x c sink (ChunkBitmap.new sink.layout.count) 0
        else .noting x c sink (ChunkBitmap.new c.layout.count)

/-- A step of the offer loop: what it makes of the reception and of the disk. -/
def advance (blake3 : Blake3) (r : Reception) (disk : FileSystem) : Option (Reception × FileSystem) :=
  let o := r.offering
  match r.phase with
  | .offered st .next [] =>
      some ({ r with
        phase := .receiving
          { blake3 := blake3
            totalBytes := st.totalBytes
            checkpointBytes := o.config.checkpointBytes }
          (Session.start { st with disk := disk } o.streamCount) }, disk)
  | .offered st .next (x :: todo) =>
      match checkEntry blake3 o.config o.outputDir o.chunkSize st.seenPaths x.1 with
      | .error (_, e) => some ({ r with phase := .refused e }, disk)
      | .ok c =>
          let preexisting := disk.pathExists c.dest
          match SinkFile.create disk c.dest x.1.sizeBytes o.chunkSize x.2.sink with
          | (disk, .error e) => some ({ r with opened := c :: r.opened, phase := .refused e }, disk)
          | (disk, .ok sink) =>
              some ({ r with
                opened := c :: r.opened
                phase := .offered { st with seenPaths := c.safePath :: st.seenPaths }
                  (.loading x c sink preexisting) todo }, disk)
  | .offered st (.loading x c sink preexisting) todo =>
      some ({ r with
        phase := .offered st (consult blake3 o.config.resume disk x c sink preexisting) todo }, disk)
  | .offered st (.rebuilding x c sink bitmap index) todo =>
      if index < sink.layout.count then
        match Resume.rebuildStep blake3 disk sink c.chunkHashes x.2.readable bitmap index with
        | .error e => some ({ r with phase := .refused e }, disk)
        | .ok bitmap =>
            some ({ r with phase := .offered st (.rebuilding x c sink bitmap (index + 1)) todo },
              disk)
      else some ({ r with phase := .offered st (.noting x c sink bitmap) todo }, disk)
  | .offered st (.noting x c sink bitmap) todo =>
      some ({ r with phase := .offered (st.note o.chunkSize x.1 c sink bitmap) .next todo }, disk)
  | _ => none

/-- A step of a reception: what it makes of it and of the disk. -/
def step (blake3 : Blake3) (r : Reception) (disk : FileSystem) :
    ReceptionAct → Option (Reception × FileSystem)
  | .advance => r.advance blake3 disk
  | .unsent error =>
      match r.phase with
      | .offered _ .next [] => some ({ r with phase := .refused error }, disk)
      | _ => none
  | .session a =>
      match r.phase with
      | .receiving p s =>
          ((s.onDisk disk).step p a).map fun s' =>
            ({ r with phase := .receiving p s' }, s'.env.disk)
      | _ => none

end Reception

namespace Host

/-- A process that has just started. -/
def fresh (disk : FileSystem) : Host :=
  { disk := disk, receptions := [] }

/-- The `i`-th reception has taken a step, and left this disk. -/
def put (h : Host) (i : Nat) (r : Reception) (disk : FileSystem) : Host :=
  { disk := disk, receptions := h.receptions.set i r }

def step (blake3 : Blake3) (h : Host) : HostAct → Option Host
  | .offer o =>
      if h.receptions.all Reception.returned then
        some { h with receptions := h.receptions ++ [Reception.start o] }
      else none
  | .reception i a =>
      match h.receptions[i]? with
      | none => none
      | some r =>
          match r.step blake3 h.disk a with
          | none => none
          | some (r', disk) => some (h.put i r' disk)
  | .kill => some (fresh h.disk)

/-- The hosts `h` can become. -/
def runs (blake3 : Blake3) (h : Host) (as : List HostAct) : Option Host :=
  Run.runs (step blake3) h as

end Host

/-! ## What a step can be -/

/-- Everything a step of a reception can be, and the disk it leaves. -/
inductive ReceptionMove (blake3 : Blake3) (r : Reception) (d : FileSystem) :
    ReceptionAct → Reception → FileSystem → Prop
  | answers {st : OfferState} (hphase : r.phase = .offered st .next []) :
      ReceptionMove blake3 r d .advance
        { r with
          phase := .receiving
            { blake3 := blake3
              totalBytes := st.totalBytes
              checkpointBytes := r.offering.config.checkpointBytes }
            (Session.start { st with disk := d } r.offering.streamCount) } d
  | refuses {st : OfferState} {x : FileEntry × EntryIo} {todo : List (FileEntry × EntryIo)}
      (hphase : r.phase = .offered st .next (x :: todo)) (error : Error) :
      ReceptionMove blake3 r d .advance { r with phase := .refused error } d
  | fails {st : OfferState} {x : FileEntry × EntryIo} {todo : List (FileEntry × EntryIo)}
      {c : Checked} {d' : FileSystem} {error : Error}
      (hphase : r.phase = .offered st .next (x :: todo))
      (hcheck : checkEntry blake3 r.offering.config r.offering.outputDir r.offering.chunkSize
        st.seenPaths x.1 = .ok c)
      (hcreate : SinkFile.create d c.dest x.1.sizeBytes r.offering.chunkSize x.2.sink
        = (d', .error error)) :
      ReceptionMove blake3 r d .advance
        { r with opened := c :: r.opened, phase := .refused error } d'
  | creates {st : OfferState} {x : FileEntry × EntryIo} {todo : List (FileEntry × EntryIo)}
      {c : Checked} {d' : FileSystem} {sink : SinkFile}
      (hphase : r.phase = .offered st .next (x :: todo))
      (hcheck : checkEntry blake3 r.offering.config r.offering.outputDir r.offering.chunkSize
        st.seenPaths x.1 = .ok c)
      (hcreate : SinkFile.create d c.dest x.1.sizeBytes r.offering.chunkSize x.2.sink
        = (d', .ok sink)) :
      ReceptionMove blake3 r d .advance
        { r with
          opened := c :: r.opened
          phase := .offered { st with seenPaths := c.safePath :: st.seenPaths }
            (.loading x c sink (d.pathExists c.dest)) todo } d'
  | consults {st : OfferState} {x : FileEntry × EntryIo} {todo : List (FileEntry × EntryIo)}
      {c : Checked} {sink : SinkFile} {preexisting : Bool}
      (hphase : r.phase = .offered st (.loading x c sink preexisting) todo) :
      ReceptionMove blake3 r d .advance
        { r with
          phase := .offered st (Reception.consult blake3 r.offering.config.resume d x c sink
            preexisting) todo } d
  | verifies {st : OfferState} {x : FileEntry × EntryIo} {todo : List (FileEntry × EntryIo)}
      {c : Checked} {sink : SinkFile} {bitmap bitmap' : ChunkBitmap} {index : Nat}
      (hphase : r.phase = .offered st (.rebuilding x c sink bitmap index) todo)
      (hindex : index < sink.layout.count)
      (hstep : Resume.rebuildStep blake3 d sink c.chunkHashes x.2.readable bitmap index
        = .ok bitmap') :
      ReceptionMove blake3 r d .advance
        { r with phase := .offered st (.rebuilding x c sink bitmap' (index + 1)) todo } d
  | verifyFails {st : OfferState} {pc : OfferPc} {todo : List (FileEntry × EntryIo)}
      (hphase : r.phase = .offered st pc todo) (error : Error) :
      ReceptionMove blake3 r d .advance { r with phase := .refused error } d
  | verified {st : OfferState} {x : FileEntry × EntryIo} {todo : List (FileEntry × EntryIo)}
      {c : Checked} {sink : SinkFile} {bitmap : ChunkBitmap} {index : Nat}
      (hphase : r.phase = .offered st (.rebuilding x c sink bitmap index) todo) :
      ReceptionMove blake3 r d .advance
        { r with phase := .offered st (.noting x c sink bitmap) todo } d
  | notes {st : OfferState} {x : FileEntry × EntryIo} {todo : List (FileEntry × EntryIo)}
      {c : Checked} {sink : SinkFile} {bitmap : ChunkBitmap}
      (hphase : r.phase = .offered st (.noting x c sink bitmap) todo) :
      ReceptionMove blake3 r d .advance
        { r with
          phase := .offered (st.note r.offering.chunkSize x.1 c sink bitmap) .next todo } d
  | unsent {st : OfferState} (hphase : r.phase = .offered st .next []) (error : Error) :
      ReceptionMove blake3 r d (.unsent error) { r with phase := .refused error } d
  | session {p : Params} {s s' : Session} {a : SessionAct} {e : Effect}
      (hphase : r.phase = .receiving p s)
      (heff : (s.onDisk d).stepEffect p a = some (s', e)) :
      ReceptionMove blake3 r d (.session a) { r with phase := .receiving p s' } s'.env.disk

/-- **Inversion of a step of a reception.** -/
theorem Reception.step_moves {blake3 : Blake3} {r r' : Reception} {d d' : FileSystem}
    {a : ReceptionAct} (h : r.step blake3 d a = some (r', d')) : ReceptionMove blake3 r d a r' d' := by
  cases a with
  | advance =>
      simp only [step, advance] at h
      split at h
      · next hphase =>
          cases h
          exact .answers hphase
      · next hphase =>
          split at h
          · cases h
            exact .refuses hphase _
          · next hcheck =>
              split at h
              · next hcreate =>
                  cases h
                  exact .fails hphase hcheck hcreate
              · next hcreate =>
                  cases h
                  exact .creates hphase hcheck hcreate
      · next hphase =>
          cases h
          exact .consults hphase
      · next hphase =>
          split at h
          · next hindex =>
              split at h
              · cases h
                exact .verifyFails hphase _
              · next hstep =>
                  cases h
                  exact .verifies hphase hindex hstep
          · cases h
            exact .verified hphase
      · next hphase =>
          cases h
          exact .notes hphase
      · cases h
  | unsent error =>
      simp only [step] at h
      split at h
      · next hphase =>
          cases h
          exact .unsent hphase error
      · cases h
  | session a =>
      simp only [step] at h
      split at h
      · next hphase =>
          obtain ⟨s', hs', heq⟩ := Option.map_eq_some_iff.1 h
          cases heq
          obtain ⟨e, heff, -⟩ := Session.step_moves hs'
          exact .session hphase heff
      · cases h

/-- Everything a step of a host can be. -/
inductive HostMove (blake3 : Blake3) (h : Host) : HostAct → Host → Prop
  | offer (o : Offering) (hreturned : ∀ r ∈ h.receptions, r.returned = true) :
      HostMove blake3 h (.offer o)
        { h with receptions := h.receptions ++ [Reception.start o] }
  | reception {i : Nat} {a : ReceptionAct} {r r' : Reception} {d : FileSystem}
      (hr : h.receptions[i]? = some r) (hmove : ReceptionMove blake3 r h.disk a r' d) :
      HostMove blake3 h (.reception i a) (h.put i r' d)
  | kill : HostMove blake3 h .kill (Host.fresh h.disk)

/-- **Inversion of a step of a host.** -/
theorem Host.step_moves {blake3 : Blake3} {h h' : Host} {a : HostAct}
    (hstep : h.step blake3 a = some h') : HostMove blake3 h a h' := by
  cases a with
  | offer o =>
      simp only [step] at hstep
      split at hstep
      · next hall =>
          cases hstep
          exact .offer o (List.all_eq_true.1 hall)
      · cases hstep
  | reception i a =>
      simp only [step] at hstep
      split at hstep
      · cases hstep
      · next hr =>
          split at hstep
          · cases hstep
          · next hmove =>
              cases hstep
              exact .reception hr (Reception.step_moves hmove)
  | kill =>
      cases hstep
      exact .kill

/-! ## The offer loop undisturbed -/

namespace Reception

variable {blake3 : Blake3}

/-- The offer loop with the disk to itself. -/
def alone (blake3 : Blake3) (x : Reception × FileSystem) (_ : Unit) :
    Option (Reception × FileSystem) :=
  x.1.advance blake3 x.2

/-- The offer loop comes from `x` to `y` by itself. -/
def Comes (blake3 : Blake3) (x y : Reception × FileSystem) : Prop :=
  ∃ n, Run.runs (alone blake3) x (List.replicate n ()) = some y

theorem Comes.refl (x : Reception × FileSystem) : Comes blake3 x x := ⟨0, rfl⟩

theorem Comes.head {x y z : Reception × FileSystem} (h : x.1.advance blake3 x.2 = some y)
    (hyz : Comes blake3 y z) : Comes blake3 x z := by
  obtain ⟨n, hn⟩ := hyz
  refine ⟨n + 1, ?_⟩
  rw [List.replicate_succ, Run.runs_cons, alone, h, Option.bind_some, hn]

theorem Comes.trans {x y z : Reception × FileSystem} (hxy : Comes blake3 x y)
    (hyz : Comes blake3 y z) : Comes blake3 x z := by
  obtain ⟨n, hn⟩ := hxy
  obtain ⟨m, hm⟩ := hyz
  refine ⟨n + m, ?_⟩
  rw [List.replicate_add, Run.runs_append, hn, Option.bind_some, hm]

variable {o : Offering} {opened : List Checked} {st : OfferState} {d : FileSystem}
  {x : FileEntry × EntryIo} {todo : List (FileEntry × EntryIo)} {c : Checked} {sink : SinkFile}

/-- Verifying chunk after chunk is the verification loop. -/
theorem comes_rebuilt {b b' : ChunkBitmap} {left index : Nat}
    (hleft : index + left = sink.layout.count)
    (h : (List.range' index left).foldlM
      (Resume.rebuildStep blake3 d sink c.chunkHashes x.2.readable) b = .ok b') :
    Comes blake3 (⟨o, opened, .offered st (.rebuilding x c sink b index) todo⟩, d)
      (⟨o, opened, .offered st (.noting x c sink b') todo⟩, d) := by
  induction left generalizing index b with
  | zero =>
      obtain rfl : b = b' := Except.ok.inj h
      have hindex : ¬ index < sink.layout.count := by omega
      refine .head ?_ (.refl _)
      simp only [advance, hindex, if_false]
  | succ left ih =>
      rw [List.range'_succ, List.foldlM_cons] at h
      cases hstep : Resume.rebuildStep blake3 d sink c.chunkHashes x.2.readable b index with
      | error e =>
          rw [hstep] at h
          cases h
      | ok b₁ =>
          rw [hstep] at h
          refine .head ?_ (ih (by omega) h)
          have hindex : index < sink.layout.count := by omega
          simp only [advance, if_pos hindex, hstep]

/-- An entry whose bitmap is decided is noted. -/
theorem comes_noted {b : ChunkBitmap} {preexisting : Bool}
    (h : initialBitmap blake3 o.config.resume d preexisting sink c x.2 = .ok b) :
    Comes blake3 (⟨o, opened, .offered st (.loading x c sink preexisting) todo⟩, d)
      (⟨o, opened, .offered (st.note o.chunkSize x.1 c sink b) .next todo⟩, d) := by
  have hnote : Comes blake3 (⟨o, opened, .offered st (.noting x c sink b) todo⟩, d)
      (⟨o, opened, .offered (st.note o.chunkSize x.1 c sink b) .next todo⟩, d) :=
    .head rfl (.refl _)
  refine .head (y := (⟨o, opened, .offered st (consult blake3 o.config.resume d x c sink
    preexisting) todo⟩, d)) rfl (Comes.trans ?_ hnote)
  unfold initialBitmap at h
  unfold consult
  split at h
  · next hresume =>
      rw [if_pos hresume, Except.ok.inj h]
      exact .refl _
  · next hresume =>
      rw [if_neg hresume]
      generalize (if x.2.recordReadable then Resume.load blake3 d c.dest c.key else none) = loaded
        at h ⊢
      cases loaded with
      | some recorded =>
          obtain rfl : recorded = b := Except.ok.inj h
          exact .refl _
      | none =>
          by_cases hpre : preexisting = true
          · simp only [if_pos hpre] at h ⊢
            rw [Resume.rebuildByVerification, List.range_eq_range'] at h
            exact comes_rebuilt (Nat.zero_add _) h
          · simp only [if_neg hpre] at h ⊢
            obtain rfl := Except.ok.inj h
            exact .refl _

/-- Where the offer loop is once it is done with entries, before those of `todo`: on the state they
    have left, or out of `run`. -/
def after (o : Offering) (opened : List Checked) (d : FileSystem)
    (todo : List (FileEntry × EntryIo)) : Except Refused OfferState → Reception × FileSystem
  | .ok st => (⟨o, opened, .offered { st with disk := d } .next todo⟩, st.disk)
  | .error r => (⟨o, opened, .refused r.error⟩, r.disk)

/-- Undisturbed, the steps over an entry come to what the offer loop makes of it. -/
theorem comes_entry (blake3 : Blake3) (o : Offering) (opened : List Checked) (st : OfferState)
    (d : FileSystem) (x : FileEntry × EntryIo) (todo : List (FileEntry × EntryIo)) :
    ∃ opened', Comes blake3 (⟨o, opened, .offered st .next (x :: todo)⟩, d)
      (after o opened' st.disk todo
        (offerEntry blake3 o.config o.outputDir o.chunkSize { st with disk := d } x)) := by
  unfold offerEntry
  cases hcheck : checkEntry blake3 o.config o.outputDir o.chunkSize st.seenPaths x.1 with
  | error e =>
      refine ⟨opened, .head ?_ (.refl _)⟩
      simp only [advance, hcheck, after]
  | ok c =>
      simp only [openEntry]
      rcases hcreate : SinkFile.create d c.dest x.1.sizeBytes o.chunkSize x.2.sink with
        ⟨d', e | sink⟩
      · refine ⟨c :: opened, .head ?_ (.refl _)⟩
        simp only [advance, hcheck, hcreate, after]
      · obtain ⟨b, hb⟩ := (checkEntry_ok hcheck).1.exists_initialBitmap hcreate o.config.resume
          (d.pathExists c.dest) x.2
        have hnoted : Comes blake3 (⟨o, c :: opened, .offered
            { st with seenPaths := c.safePath :: st.seenPaths }
            (.loading x c sink (d.pathExists c.dest)) todo⟩, d') _ := comes_noted hb
        simp only [hb]
        refine ⟨c :: opened, .head ?_ hnoted⟩
        simp only [advance, hcheck, hcreate]

/-- Undisturbed, the offer loop goes over any entries. -/
theorem comes_entries (blake3 : Blake3) (o : Offering) (opened : List Checked) (st : OfferState)
    (d : FileSystem) (xs : List (FileEntry × EntryIo)) :
    ∃ opened', Comes blake3 (⟨o, opened, .offered st .next xs⟩, d)
      (after o opened' st.disk []
        (offerLoop blake3 o.config o.outputDir o.chunkSize { st with disk := d } xs)) := by
  induction xs generalizing opened st d with
  | nil => exact ⟨opened, .refl _⟩
  | cons x xs ih =>
      obtain ⟨opened₁, hfirst⟩ := comes_entry blake3 o opened st d x xs
      rw [offerLoop, List.foldlM_cons]
      cases hx : offerEntry blake3 o.config o.outputDir o.chunkSize { st with disk := d } x with
      | error r =>
          rw [hx] at hfirst
          exact ⟨opened₁, hfirst⟩
      | ok st₁ =>
          rw [hx] at hfirst
          obtain ⟨opened', hrest⟩ := ih opened₁ { st₁ with disk := st.disk } st₁.disk
          exact ⟨opened', hfirst.trans hrest⟩

/-- **Undisturbed, a reception goes over its offer as the offer loop does**, and leaves the same disk:
    it comes to the session over what the loop makes of the offer, or to its refusal. -/
theorem comes_answer (o : Offering) (d : FileSystem) :
    (∀ st, o.answer blake3 d = .ok st → ∃ opened, Comes blake3 (Reception.start o, d)
      (⟨o, opened, .receiving
        { blake3 := blake3
          totalBytes := st.totalBytes
          checkpointBytes := o.config.checkpointBytes } (Session.start st o.streamCount)⟩,
        st.disk)) ∧
    (∀ r, o.answer blake3 d = .error r → ∃ opened, Comes blake3 (Reception.start o, d)
      (⟨o, opened, .refused r.error⟩, r.disk)) := by
  obtain ⟨opened, hcomes⟩ := comes_entries blake3 o [] (.init .empty) d o.entries
  refine ⟨fun st hst => ⟨opened, ?_⟩, fun r hr => ⟨opened, ?_⟩⟩
  · rw [show offerLoop blake3 o.config o.outputDir o.chunkSize
      { OfferState.init .empty with disk := d } o.entries = .ok st from hst] at hcomes
    exact hcomes.trans (.head rfl (.refl _))
  · rw [show offerLoop blake3 o.config o.outputDir o.chunkSize
      { OfferState.init .empty with disk := d } o.entries = .error r from hr] at hcomes
    exact hcomes

end Reception

end AetherLink
