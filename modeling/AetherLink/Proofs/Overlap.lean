import AetherLink.Proofs.Beside

set_option autoImplicit false

/-! # One reception over another

Receptions follow one another in a process, and process after process, over one disk. What one of them
believes of the file at `dest` another can make false in two ways: under another key it changes bytes
that are recorded, and a worker that has outlived its `run` writes, or records its bits, beside a
later reception of the file.

A run whose steps do neither (`Host.SparesRecords`) keeps the record of `dest` true (`Host.Linked`):
whatever record an offer of `dest` loads, in any later reception, its bits are for chunks that the
file holds. -/

namespace AetherLink

open Bytes Storage

/-! ## The condition -/

/-- A reception after the `i`-th has opened `c`. -/
def Host.OpenedAfter (h : Host) (i : Nat) (c : Checked) : Prop :=
  ∃ j r, i < j ∧ h.receptions[j]? = some r ∧ c ∈ r.opened

/-- What the opening of an entry leaves as it is. -/
structure Host.SparesOpening (blake3 : Blake3) (dest : FilePath) (h : Host)
    (x : FileEntry × EntryIo) (c : Checked) : Prop where
  /-- the destination is not the record of `dest`, which is not its record or temporary file -/
  off : OffRecord dest c.dest
  /-- nor is it the record or the temporary file of a destination of this process, or the other way
      round -/
  apart : ∀ r ∈ h.receptions, ∀ c' ∈ r.opened, DestsApart c.dest c'.dest
  /-- sizing `dest` cuts no byte of a chunk recorded under another key -/
  sizes : ∀ reserved, c.dest = dest → x.2.sink = .opened (.done reserved) →
    SparesRecorded blake3 h.disk dest c.key ((h.disk.contents dest).getD [])
      (sized ((h.disk.contents dest).getD []) x.1.sizeBytes.toNat)

/-- What a worker of the `i`-th reception leaves to those after it: it does not write to `dest` once
    one of them has opened it under another key, and makes no checkpoint once one of them has opened
    a file of its session. -/
structure Host.LeavesToLater (dest : FilePath) (h : Host) (i : Nat) (s : Session) (w : Worker)
    (io : IoAct) : Prop where
  writes : ∀ n done c st, io = .write n → w.pc = .write done → w.current = some c →
    s.env.files.lookup c.fileId = some st → st.sink.path = dest →
    ∀ c', h.OpenedAfter i c' → c'.dest = dest → c'.key = st.key
  checkpoints : ∀ pc, w.pc = .checkpoint pc → ∀ id st, s.env.files.lookup id = some st →
    ∀ c', h.OpenedAfter i c' → c'.dest ≠ st.sink.path

/-- What a step of the `i`-th reception leaves as it is: what is recorded under another key, and what
    belongs to a later reception. -/
def Host.SparesStep (blake3 : Blake3) (dest : FilePath) (h : Host) (i : Nat) (r : Reception) :
    ReceptionAct → Prop
  | .advance => ∀ st x todo c, r.phase = .offered st .next (x :: todo) →
      checkEntry blake3 r.offering.config r.offering.outputDir r.offering.chunkSize st.seenPaths x.1
        = .ok c → h.SparesOpening blake3 dest x c
  | .unsent _ => True
  | .session a => ∀ p s, r.phase = .receiving p s →
      (s.onDisk h.disk).SparesRecords blake3 dest a ∧
        ∀ k io w, a = .worker k io → s.workers[k]? = some w → h.LeavesToLater dest i s w io

def Host.SparesRecords (blake3 : Blake3) (dest : FilePath) (h : Host) : HostAct → Prop
  | .reception i a => ∀ r, h.receptions[i]? = some r → h.SparesStep blake3 dest i r a
  | _ => True

/-- The hash has no collision on what the action offers. -/
def HostAct.DigestsIn (blake3 : Blake3) (T : Set Hash) : HostAct → Prop
  | .offer o => o.DigestsIn blake3 T
  | _ => True

/-! ## The invariant -/

/-- A later reception has opened a file of the `i`-th. -/
def Host.Superseded (h : Host) (i : Nat) : Prop :=
  ∃ r fs c, h.receptions[i]? = some r ∧ r.phase.Has fs ∧ h.OpenedAfter i c ∧ c.dest = fs.sink.path

/-- What holds of a host whose steps all spare the record of `dest`. -/
structure Host.Linked (blake3 : Blake3) (T : Set Hash) (dest : FilePath) (h : Host) : Prop where
  record : RecordTrue blake3 T dest h.disk
  returned : ∀ i r, h.receptions[i]? = some r → i + 1 < h.receptions.length → r.returned = true
  apart : ∀ r ∈ h.receptions, ∀ r' ∈ h.receptions, ∀ c ∈ r.opened, ∀ c' ∈ r'.opened,
    DestsApart c.dest c'.dest
  off : ∀ r ∈ h.receptions, ∀ c ∈ r.opened, OffRecord dest c.dest
  bound : ∀ r ∈ h.receptions, r.Bound blake3 T h.disk
  linked : ∀ i r, h.receptions[i]? = some r → ¬ h.Superseded i → r.Linked blake3 T dest h.disk

section Update

variable {blake3 : Blake3} {T : Set Hash} {dest : FilePath} {h : Host} {i : Nat} {r r' : Reception}
  {d : FileSystem}

theorem Host.receptions_set {i j : Nat} {x y : Reception} (hr : h.receptions[i]? = some x)
    (hj : (h.receptions.set i r')[j]? = some y) :
    (j = i ∧ y = r') ∨ (j ≠ i ∧ h.receptions[j]? = some y) := by
  have hlt := (List.getElem?_eq_some_iff.1 hr).1
  rw [List.getElem?_set] at hj
  by_cases hij : i = j
  · subst hij
    rw [if_pos rfl, if_pos hlt, Option.some.injEq] at hj
    exact Or.inl ⟨rfl, hj.symm⟩
  · rw [if_neg hij] at hj
    exact Or.inr ⟨Ne.symm hij, hj⟩

/-- What later receptions have opened, they still have opened after a step of one reception. -/
theorem Host.OpenedAfter.update (hr : h.receptions[i]? = some r)
    (hmono : ∀ c ∈ r.opened, c ∈ r'.opened) {j : Nat} {c : Checked} (hc : h.OpenedAfter j c) :
    (h.put i r' d).OpenedAfter j c := by
  obtain ⟨k, x, hjk, hx, hmem⟩ := hc
  have hlt := (List.getElem?_eq_some_iff.1 hr).1
  by_cases hik : i = k
  · subst hik
    obtain rfl := Option.some.inj (hr.symm.trans hx)
    exact ⟨i, r', hjk, by simp [Host.put, hlt], hmono c hmem⟩
  · exact ⟨k, x, hjk, by rw [Host.put, List.getElem?_set, if_neg hik, hx], hmem⟩

/-- A reception whose files a later one has opened stays so under a step of one reception, as long as
    it keeps its files. -/
theorem Host.Superseded.update (hr : h.receptions[i]? = some r)
    (hmono : ∀ c ∈ r.opened, c ∈ r'.opened) {j : Nat}
    (hkeeps : i = j → ∀ fs, r.phase.Has fs →
      ∃ fs', r'.phase.Has fs' ∧ fs'.sink.path = fs.sink.path)
    (hj : h.Superseded j) :
    (h.put i r' d).Superseded j := by
  obtain ⟨x, fs, c, hx, hfs, hc, hdest⟩ := hj
  have hlt := (List.getElem?_eq_some_iff.1 hr).1
  have hc' := hc.update (d := d) hr hmono
  by_cases hij : i = j
  · subst hij
    obtain rfl := Option.some.inj (hr.symm.trans hx)
    obtain ⟨fs', hfs', hpath⟩ := hkeeps rfl fs hfs
    exact ⟨r', fs', c, by simp [Host.put, hlt], hfs', hc', hdest.trans hpath.symm⟩
  · exact ⟨x, fs, c, by rw [Host.put, List.getElem?_set, if_neg hij, hx], hfs, hc', hdest⟩

/-- **What is left to show of a step of one reception**: of its own, and that it does not disturb the
    others. -/
theorem Host.Linked.update (hcf : CollisionFreeOn blake3 T) (hL : h.Linked blake3 T dest)
    (hr : h.receptions[i]? = some r) (hrecord : RecordTrue blake3 T dest d)
    (hreturned : r.returned = true → r'.returned = true)
    (hmono : ∀ c ∈ r.opened, c ∈ r'.opened)
    (hopened : ∀ c ∈ r'.opened, c ∈ r.opened ∨
      OffRecord dest c.dest ∧ DestsApart c.dest c.dest ∧
        ∀ x ∈ h.receptions, ∀ c' ∈ x.opened, DestsApart c.dest c'.dest)
    (hone : ∀ c ∈ r'.opened, ∀ c' ∈ r'.opened, c ∉ r.opened → c' ∉ r.opened → c = c')
    (hkeeps : h.Superseded i →
      (h.put i r' d).Superseded i)
    (hbound : r'.Bound blake3 T d) (hlinked : ¬ h.Superseded i → r'.Linked blake3 T dest d)
    (hnamed : ∀ j x, j ≠ i → h.receptions[j]? = some x → ∀ fs, x.phase.Has fs →
      d.node fs.sink.path = some (.file fs.sink.ino))
    (hothers : ∀ j x, j ≠ i → h.receptions[j]? = some x →
      ¬ (h.put i r' d).Superseded j →
        x.Undisturbed blake3 dest h.disk d) :
    (h.put i r' d).Linked blake3 T dest := by
  have hmem : ∀ x ∈ h.receptions.set i r', x = r' ∨ x ∈ h.receptions :=
    fun x hx => (List.mem_or_eq_of_mem_set hx).symm
  have hrmem := List.mem_of_getElem? hr
  refine ⟨hrecord, fun j x hx hlast => ?_, fun x hx x' hx' c hc c' hc' => ?_, fun x hx c hc => ?_,
    fun x hx => ?_, fun j x hx hsup => ?_⟩
  · rw [Host.put, List.length_set] at hlast
    rcases Host.receptions_set hr hx with ⟨rfl, rfl⟩ | ⟨-, hx⟩
    · exact hreturned (hL.returned j r hr hlast)
    · exact hL.returned j x hx hlast
  · -- a destination that is new is apart from all
    have hnew : ∀ y ∈ h.receptions.set i r', ∀ c ∈ y.opened, (∃ z ∈ h.receptions, c ∈ z.opened) ∨
        (y = r' ∧ c ∈ r'.opened ∧ c ∉ r.opened ∧ DestsApart c.dest c.dest ∧
          ∀ x ∈ h.receptions, ∀ c' ∈ x.opened, DestsApart c.dest c'.dest) := by
      intro y hy c hc
      rcases hmem y hy with rfl | hy
      · by_cases hold : c ∈ r.opened
        · exact Or.inl ⟨r, hrmem, hold⟩
        · rcases hopened c hc with hin | ⟨-, hself, hall⟩
          · exact absurd hin hold
          · exact Or.inr ⟨rfl, hc, hold, hself, hall⟩
      · exact Or.inl ⟨y, hy, hc⟩
    rcases hnew x hx c hc with ⟨z, hz, hcz⟩ | ⟨-, hcr, hcold, hself, hall⟩ <;>
      rcases hnew x' hx' c' hc' with ⟨z', hz', hcz'⟩ | ⟨-, hcr', hcold', hself', hall'⟩
    · exact hL.apart z hz z' hz' c hcz c' hcz'
    · exact (hall' z hz c hcz).symm
    · exact hall z' hz' c' hcz'
    · rw [hone c hcr c' hcr' hcold hcold']
      exact hself'
  · rcases hmem x hx with rfl | hx
    · rcases hopened c hc with hold | ⟨hoff, -⟩
      · exact hL.off r hrmem c hold
      · exact hoff
    · exact hL.off x hx c hc
  · obtain ⟨j, hj⟩ := List.mem_iff_getElem?.1 hx
    rcases Host.receptions_set hr hj with ⟨rfl, rfl⟩ | ⟨hne, hj⟩
    · exact hbound
    · exact (hL.bound x (List.mem_of_getElem? hj)).frame (hnamed j x hne hj)
  · rcases Host.receptions_set hr hx with ⟨rfl, rfl⟩ | ⟨hne, hx⟩
    · exact hlinked fun hold => hsup (hkeeps hold)
    · have hsup' : ¬ h.Superseded j :=
        fun hold => hsup (hold.update hr hmono fun heq => absurd heq.symm hne)
      exact (hL.linked j x hx hsup').frame hcf (hL.bound x (List.mem_of_getElem? hx))
        (hothers j x hne hx hsup) hrecord

/-- The destinations of any two files are apart. -/
theorem Host.Linked.files_apart (hL : h.Linked blake3 T dest) {x y : Reception}
    (hx : x ∈ h.receptions) (hy : y ∈ h.receptions) {fs fs' : FileState} (hfs : x.phase.Has fs)
    (hfs' : y.phase.Has fs') : DestsApart fs.sink.path fs'.sink.path := by
  obtain ⟨c, hc, hmade⟩ := (hL.bound x hx).made fs hfs
  obtain ⟨c', hc', hmade'⟩ := (hL.bound y hy).made fs' hfs'
  rw [hmade.path, hmade'.path]
  exact hL.apart x hx y hy c hc c' hc'

theorem Host.Linked.off_file (hL : h.Linked blake3 T dest) {x : Reception}
    (hx : x ∈ h.receptions) {fs : FileState} (hfs : x.phase.Has fs) :
    OffRecord dest fs.sink.path := by
  obtain ⟨c, hc, hmade⟩ := (hL.bound x hx).made fs hfs
  rw [hmade.path]
  exact hL.off x hx c hc

/-- A file that a later reception has opened, too. -/
theorem Host.Linked.openedAfter (hL : h.Linked blake3 T dest) {j : Nat} {x : Reception} (hij : i < j)
    (hx : h.receptions[j]? = some x) {fs : FileState} (hfs : x.phase.Has fs) :
    ∃ c, h.OpenedAfter i c ∧ c.Made fs := by
  obtain ⟨c, hc, hmade⟩ := (hL.bound x (List.mem_of_getElem? hx)).made fs hfs
  exact ⟨c, ⟨j, x, hij, hx, hc⟩, hmade⟩

end Update

/-! ## A session beside others -/

section Session

variable {blake3 : Blake3} {T : Set Hash} (hcf : CollisionFreeOn blake3 T) {dest : FilePath}
  {h : Host} {i : Nat} {r : Reception} {p : Params} {s s' : Session} {a : SessionAct} {e : Effect}
  (hL : h.Linked blake3 T dest) (hr : h.receptions[i]? = some r)
  (hphase : r.phase = .receiving p s)
include hL hr hphase

/-- A session whose files a later reception has opened has returned, and of its workers only writes
    reach the disk. -/
theorem Host.Linked.superseded_step (hsup : h.Superseded i)
    (heff : (s.onDisk h.disk).stepEffect p a = some (s', e))
    (hspares : h.SparesStep blake3 dest i r (.session a)) :
    e.Plain ∨ ∃ k w c st done n, a = .worker k (.write n) ∧ s.workers[k]? = some w ∧
      w.pc = .write done ∧ w.current = some c ∧ s.env.files.lookup c.fileId = some st ∧
      e = .pwrite st.sink.ino (c.start + done) (slice w.buf done n) := by
  obtain ⟨x, fs, c, hx, hfs, hc, hdest⟩ := hsup
  obtain ⟨j, y, hij, hy, -⟩ := id hc
  obtain rfl := Option.some.inj (hr.symm.trans hx)
  rw [hphase] at hfs
  cases hfs with
  | received hst =>
  have hlast : i + 1 < h.receptions.length :=
    Nat.lt_of_le_of_lt hij (List.getElem?_eq_some_iff.1 hy).1
  obtain ⟨res, hret⟩ : ∃ res, s.main = .returned res := by
    have hreturned := hL.returned i r hr hlast
    simp only [Reception.returned, hphase] at hreturned
    split at hreturned
    · next hmain => exact ⟨_, hmain⟩
    · cases hreturned
  cases Session.stepEffect_cases heff with
  | deliver hw hopen => exact Or.inl plain_quiet
  | close hw hopen => exact Or.inl plain_quiet
  | @worker k io w w' e hw hstep =>
      have hpc : ∀ pc, w.pc ≠ .checkpoint pc := fun pc hpc =>
        ((hspares p s hphase).2 k io w rfl hw).checkpoints pc hpc _ fs hst c hc hdest
      rcases Worker.step_elsewhere hstep hpc with hplain |
        ⟨c', st, done, n, rfl, hpc', hcur, hst', rfl⟩
      · exact Or.inl hplain
      · exact Or.inr ⟨k, w, c', st, done, n, rfl, hw, hpc', hcur, hst', rfl⟩
  | accept hmain => cases hret.symm.trans hmain
  | refuse hmain => cases hret.symm.trans hmain
  | join hmain hended horder hnext => cases hret.symm.trans hmain
  | main hstep =>
      rw [Session.onDisk_main, hret] at hstep
      cases hstep

omit hL hr in
/-- The files of the session after a step are those before it. -/
theorem Phase.Has.of_step (hmove : SessionMove p (s.onDisk h.disk) s' e) {fs' : FileState}
    (hfs' : (Phase.receiving p s').Has fs') : ∃ fs, r.phase.Has fs ∧ fs.SameFile fs' := by
  cases hfs' with
  | received hst' =>
      obtain ⟨st, hst, -, hsame⟩ := hmove.lookup_back hst'
      exact ⟨st, Phase.Has.of_lookup hphase hst, hsame⟩

/-- The record operations of a session keep off the destinations of every reception. -/
theorem Host.Linked.node_step (hmove : SessionMove p (s.onDisk h.disk) s' e) {x : Reception}
    (hx : x ∈ h.receptions) {fs : FileState} (hfs : x.phase.Has fs) :
    (e.onDisk h.disk).node fs.sink.path = some (.file fs.sink.ino) := by
  rw [Effect.node_onDisk]
  · exact (hL.bound x hx).named fs hfs
  · intro hq
    obtain ⟨id, st, hst, hwhich⟩ := hmove.recordPaths hq
    have hapart := hL.files_apart hx (List.mem_of_getElem? hr) hfs (.of_lookup hphase hst)
    rcases hwhich with heq | heq
    · exact hapart.state heq
    · exact hapart.tmp heq

/-- What a session takes with it when it takes a step: its files stay bound. -/
theorem Host.Linked.bound_step (hmove : SessionMove p (s.onDisk h.disk) s' e) :
    ({ r with phase := .receiving p s' } : Reception).Bound blake3 T s'.env.disk := by
  have hrmem := List.mem_of_getElem? hr
  have hbound := hL.bound r hrmem
  obtain ⟨rfl, hfits, hwired⟩ := hbound.receiving p s hphase
  have hdisk : s'.env.disk = e.onDisk h.disk := by rw [hmove.env_eq, Env.apply_disk, Session.onDisk_disk]
  have hoff : OffDestinations (s.onDisk h.disk).env.files e := by
    refine NamesApart.offDestinations (fun id id' st st' hst hst' => ?_) hmove
    have hapart := hL.files_apart hrmem hrmem (.of_lookup hphase hst') (.of_lookup hphase hst)
    exact ⟨hapart.state, hapart.tmp⟩
  refine ⟨hbound.opened, fun fs' hfs' => ?_, fun fs' hfs' => ?_, fun st pc todo heq => (by cases heq),
    fun q u heq => ?_⟩
  · obtain ⟨fs, hfs, hsame⟩ := Phase.Has.of_step hphase hmove hfs'
    obtain ⟨c, hc, hmade⟩ := hbound.made fs hfs
    exact ⟨c, hc, hmade.of_sameFile hsame⟩
  · obtain ⟨fs, hfs, hsame⟩ := Phase.Has.of_step hphase hmove hfs'
    rw [hsame.sink, hdisk]
    exact hL.node_step hr hphase hmove hrmem hfs
  · cases heq
    exact ⟨rfl, hmove.fits hfits, hwired.step hmove hoff⟩

/-- **A session that has its files to itself disturbs nobody who has his.** -/
theorem Host.Linked.undisturbed_of_tidy (hmove : SessionMove p (s.onDisk h.disk) s' e)
    (htidy : (s.onDisk h.disk).Tidy p.blake3) {x : Reception} (hx : x ∈ h.receptions)
    (hne : ∀ fs, x.phase.Has fs → ∀ id st, s.env.files.lookup id = some st →
      fs.sink.path ≠ st.sink.path) : x.Undisturbed blake3 dest h.disk (e.onDisk h.disk) := by
  have hrmem := List.mem_of_getElem? hr
  have hapart : ∀ {fs}, x.phase.Has fs → ∀ {id st}, s.env.files.lookup id = some st →
      DestsApart fs.sink.path st.sink.path := fun hfs _ _ hst =>
    hL.files_apart hx hrmem hfs (.of_lookup hphase hst)
  refine (hL.bound x hx).undisturbed (fun fs hfs => ?_) fun fs hfs => ?_
  · refine (htidy.spares hmove fun id st hst => ?_).untouched
    exact ⟨hne fs hfs id st hst, (hapart hfs hst).state, (hapart hfs hst).tmp⟩
  · refine (htidy.spares hmove fun id st hst => ?_).untouched
    have hname := (hL.bound x hx).named_path hfs
    have hname' := htidy.sound.named id st hst
    refine ⟨(hapart hfs hst).tmp'.symm, (statePath_ne_tmpPath _ hname.2).symm, fun heq => ?_⟩
    exact hne fs hfs id st hst (tmpPath_inj hname hname' heq)

/-- A write to the file of `st`, which belongs to its content, disturbs nobody else who has another
    file there, or the same. -/
theorem Host.Linked.undisturbed_of_write {id : UInt64} {st : FileState} {off : Nat} {bs : List UInt8}
    (hst : s.env.files.lookup id = some st) {x : Reception} (hx : x ∈ h.receptions)
    (hlawful : ∀ fs, x.phase.Has fs → fs.sink.path = dest → fs.sink.path = st.sink.path →
      Lawful blake3 fs.layout fs.chunkHashes (.pwrite off bs)) :
    x.Undisturbed blake3 dest h.disk ((Effect.pwrite st.sink.ino off bs).onDisk h.disk) := by
  have hrmem := List.mem_of_getElem? hr
  have hfile := Phase.Has.of_lookup hphase hst
  have hnode := (hL.bound r hrmem).named st hfile
  have hne : ∀ {q}, q ≠ st.sink.path → Untouched h.disk
      ((Effect.pwrite st.sink.ino off bs).onDisk h.disk) q := fun hq =>
    (Effect.spares_pwrite fun hq' => hq (h.disk.node_inj _ _ _ hq' hnode)).untouched
  refine ⟨fun fs hfs => (hL.bound x hx).named fs hfs, fun fs hfs hpath => ?_, fun fs hfs => ?_⟩
  · have hlt := h.disk.node_lt _ _ ((hL.bound x hx).named fs hfs)
    refine ⟨_, fun op hop => ?_, ((Effect.pwrite st.sink.ino off bs).onInode hlt).data⟩
    simp only [Effect.ops] at hop
    split at hop
    · next hino =>
        obtain rfl := List.mem_singleton.1 hop
        refine hlawful fs hfs hpath (h.disk.node_inj _ _ _ ((hL.bound x hx).named fs hfs) ?_)
        rw [← hino]
        exact hnode
    · cases hop
  · exact hne (hL.files_apart hx hrmem hfs hfile).tmp'.symm

omit hL hr hphase in
/-- A session that has returned stays so. -/
theorem SessionMove.returned {s s' : Session} {res : Except Error UInt64} (hmove : SessionMove p s s' e)
    (hmain : s.main = .returned res) : s'.main = .returned res := by
  cases hmove with
  | arrives hw hopen inbox closed => exact hmain
  | worker hw hmove => exact hmain
  | accepts hspawning => cases hmain.symm.trans hspawning
  | refuses hspawning error => cases hmain.symm.trans hspawning
  | joins hjoining hended horder hnext => cases hmain.symm.trans hjoining
  | main hmove =>
      rw [hmain] at hmove
      cases hmove

include hcf in
/-- **Every step of a session that spares the record keeps a host linked**, the session being the
    last one or one whose workers have outlived it. -/
theorem Host.Linked.session (hname : Named dest)
    (heff : (s.onDisk h.disk).stepEffect p a = some (s', e))
    (hspares : h.SparesStep blake3 dest i r (.session a)) :
    (h.put i { r with phase := .receiving p s' } s'.env.disk).Linked blake3 T dest := by
  have hmove := Session.stepEffect_moves heff
  have hrmem := List.mem_of_getElem? hr
  have hbound := hL.bound r hrmem
  obtain ⟨rfl, hfits, hwired⟩ := hbound.receiving p s hphase
  have hdisk : s'.env.disk = e.onDisk h.disk := by
    rw [hmove.env_eq, Env.apply_disk, Session.onDisk_disk]
  have hmono : ∀ c ∈ r.opened, c ∈ ({ r with phase := .receiving p s' } : Reception).opened :=
    fun c hc => hc
  have hforth : ∀ fs, r.phase.Has fs →
      ∃ fs', (Phase.receiving p s').Has fs' ∧ fs'.sink.path = fs.sink.path := by
    intro fs hfs
    rw [hphase] at hfs
    cases hfs with
    | received hst =>
        obtain ⟨st', hst', hsame⟩ := hmove.sameStates _ fs hst
        exact ⟨st', .received hst', by rw [hsame.sink]⟩
  have hreturned : r.returned = true →
      ({ r with phase := .receiving p s' } : Reception).returned = true := by
    intro hret
    simp only [Reception.returned, hphase] at hret
    split at hret
    · next hmain => simp only [Reception.returned, hmove.returned hmain]
    · cases hret
  -- an other whose files no later one has opened shares files with later ones only
  have hassemble : RecordTrue p.blake3 T dest s'.env.disk → (¬ h.Superseded i →
        ({ r with phase := .receiving p s' } : Reception).Linked p.blake3 T dest s'.env.disk) →
      (∀ j x, j ≠ i → h.receptions[j]? = some x →
        (∀ fs, x.phase.Has fs → ∀ id st, s.env.files.lookup id = some st →
          fs.sink.path = st.sink.path → i < j) →
        x.Undisturbed p.blake3 dest h.disk s'.env.disk) →
      (h.put i { r with phase := .receiving p s' } s'.env.disk).Linked p.blake3 T dest := by
    intro hrecord hlinked hundisturbed
    refine hL.update hcf hr hrecord hreturned hmono (fun c hc => Or.inl hc)
      (fun c hc c' hc' hold _ => absurd hc hold) (fun hsup => hsup.update hr hmono fun _ => hforth)
      (hL.bound_step hr hphase hmove) hlinked (fun j x _ hx fs hfs => ?_) fun j x hne hx hsup => ?_
    · rw [hdisk]
      exact hL.node_step hr hphase hmove (List.mem_of_getElem? hx) hfs
    · refine hundisturbed j x hne hx fun fs hfs id st hst hpath => ?_
      rcases Nat.lt_or_gt_of_ne hne with hlt | hgt
      · obtain ⟨c, hc, hmade⟩ := hL.openedAfter hlt hr (Phase.Has.of_lookup hphase hst)
        have hold : h.Superseded j := ⟨x, fs, c, hx, hfs, hc, by rw [← hmade.path, hpath]⟩
        exact absurd (hold.update hr hmono fun heq => absurd heq.symm hne) hsup
      · exact hgt
  by_cases hsup : h.Superseded i
  · rcases hL.superseded_step hr hphase hsup heff hspares with hplain |
      ⟨k, w, c, st, done, n, rfl, hw, hpc, hcur, hst, rfl⟩
    · rw [hplain] at hdisk
      rw [hdisk] at hassemble ⊢
      refine hassemble hL.record (fun hnot => absurd hsup hnot) fun j x _ hx _ => ?_
      exact (hL.bound x (List.mem_of_getElem? hx)).undisturbed (fun fs _ => .refl _ _)
        fun fs _ => .refl _ _
    · obtain ⟨hspared, hleaves⟩ := hspares p s hphase
      have hfile := Phase.Has.of_lookup hphase hst
      have hpiece : Lawful p.blake3 st.layout st.chunkHashes
          (.pwrite (c.start + done) (slice w.buf done n)) := by
        have hops := hwired.chunkWrites hmove hfits (fun q hq => absurd hq List.not_mem_nil) hst
        exact (hops _ (by simp [Effect.ops])).lawful
      rw [hdisk] at hassemble ⊢
      refine hassemble ?_ (fun hnot => absurd hsup hnot) fun j x hne hx hlater => ?_
      · exact hL.record.sinkWrite hcf (hbound.named st hfile) (hL.off_file hrmem hfile).state
          (hbound.vouches hfile) hpiece fun hpath => hspared w c st done hw hpc hcur hst hpath
      · refine hL.undisturbed_of_write hr hphase hst (List.mem_of_getElem? hx)
          fun fs hfs hdest hpath => ?_
        -- a later reception of the file has it under the same key
        obtain ⟨c', hc', hmade⟩ := hL.openedAfter (hlater fs hfs _ st hst hpath) hx hfs
        have hkey : fs.key = st.key := by
          rw [hmade.key]
          exact (hleaves k _ w rfl hw).writes n done c st rfl hpc hcur hst (hpath ▸ hdest) c' hc'
            (hmade.path ▸ hdest)
        have hvouches := hbound.vouches hfile
        have hvouches' := (hL.bound x (List.mem_of_getElem? hx)).vouches hfs
        obtain ⟨hlayout, hhashes⟩ := hvouches.commits.unique hcf hvouches.root_mem
          (hkey ▸ hvouches'.commits)
        rw [hlayout, hhashes]
        exact hpiece
  · have hlinked := (hL.linked i r hr hsup).receiving p s hphase
    have hstep := hlinked.step hcf hname heff (hspares p s hphase).1
    refine hassemble hstep.record (fun _ => ⟨fun st pc todo heq => (by cases heq), fun q u heq => ?_⟩)
      fun j x hne hx hlater => ?_
    · cases heq
      exact hstep
    · rw [hdisk]
      refine hL.undisturbed_of_tidy hr hphase hmove hlinked.tidy (List.mem_of_getElem? hx)
        fun fs hfs id st hst hpath => hsup ?_
      obtain ⟨c, hc, hmade⟩ := hL.openedAfter (hlater fs hfs id st hst hpath) hx hfs
      exact ⟨r, st, c, hr, .of_lookup hphase hst, hc, by rw [← hmade.path, hpath]⟩

end Session

/-! ## An offer beside others -/

section Offer

variable {blake3 : Blake3} {T : Set Hash} (hcf : CollisionFreeOn blake3 T) {dest : FilePath}
  {h : Host} {i : Nat} {r r' : Reception} {d : FileSystem}
  (hL : h.Linked blake3 T dest) (hr : h.receptions[i]? = some r)

include hL hr

/-- Nothing is opened after a reception that is still in its offer: it is the last. -/
theorem Host.Linked.last_of_offered (hret : r.returned = false) (c : Checked) :
    ¬ h.OpenedAfter i c := by
  rintro ⟨j, y, hij, hy, -⟩
  have hlast : i + 1 < h.receptions.length :=
    Nat.lt_of_le_of_lt hij (List.getElem?_eq_some_iff.1 hy).1
  rw [hL.returned i r hr hlast] at hret
  cases hret

theorem Host.Linked.linked_of_offered (hret : r.returned = false) : r.Linked blake3 T dest h.disk :=
  hL.linked i r hr fun ⟨_, _, c, _, _, hc, _⟩ => hL.last_of_offered hr hret c hc

include hcf

/-- A step of a reception that opens nothing and leaves the disk as it is. -/
theorem Host.Linked.inside (hret : r.returned = false) (hopened : r'.opened = r.opened)
    (hbound : r'.Bound blake3 T h.disk) (hlinked : r'.Linked blake3 T dest h.disk) :
    (h.put i r' h.disk).Linked blake3 T dest := by
  refine hL.update hcf hr hL.record (fun hold => by rw [hret] at hold; cases hold)
    (fun c hc => hopened ▸ hc) (fun c hc => Or.inl (hopened ▸ hc))
    (fun c hc c' hc' hold _ => absurd (hopened ▸ hc) hold)
    (fun ⟨_, _, c, _, _, hc, _⟩ => absurd hc (hL.last_of_offered hr hret c)) hbound
    (fun _ => hlinked) (fun j x _ hx fs hfs => (hL.bound x (List.mem_of_getElem? hx)).named fs hfs)
    fun j x _ hx _ => ?_
  exact (hL.bound x (List.mem_of_getElem? hx)).undisturbed (fun fs _ => .refl _ _)
    fun fs _ => .refl _ _

/-- **A staging file is opened beside others**: it is theirs no longer. -/
theorem Host.Linked.opens {st : OfferState} {x : FileEntry × EntryIo}
    {todo : List (FileEntry × EntryIo)} {c : Checked}
    (hphase : r.phase = .offered st .next (x :: todo))
    (hcheck : checkEntry blake3 r.offering.config r.offering.outputDir r.offering.chunkSize
      st.seenPaths x.1 = .ok c)
    (hspares : h.SparesOpening blake3 dest x c)
    (hd : d = (SinkFile.create h.disk c.dest x.1.sizeBytes r.offering.chunkSize x.2.sink).1)
    (hopened : r'.opened = c :: r.opened) (hbound : r'.Bound blake3 T d)
    (hlinked : r'.Linked blake3 T dest d) : (h.put i r' d).Linked blake3 T dest := by
  obtain ⟨hfor, -⟩ := checkEntry_ok hcheck
  have hret : r.returned = false := by rw [Reception.returned, hphase]
  have hlt := (List.getElem?_eq_some_iff.1 hr).1
  have hnew : ∀ c' ∈ r'.opened, c' ∈ r.opened ∨ c' = c := by
    intro c' hc'
    rw [hopened] at hc'
    exact (List.mem_cons.1 hc').symm
  refine hL.update hcf hr ?_ (fun hold => by rw [hret] at hold; cases hold)
    (fun c' hc' => hopened ▸ List.mem_cons_of_mem _ hc') (fun c' hc' => ?_)
    (fun c₁ hc₁ c₂ hc₂ hold₁ hold₂ => ?_)
    (fun ⟨_, _, c', _, _, hc', _⟩ => absurd hc' (hL.last_of_offered hr hret c')) hbound
    (fun _ => hlinked) (fun j y _ hy fs hfs => ?_) fun j y hne hy hsup => ?_
  · rw [hd]
    exact hL.record.create hcf c.key (by rw [hfor.key_eq]) hspares.off.state.symm
      fun hdest reserved hio => hspares.sizes reserved hdest hio
  · rcases hnew c' hc' with hold | rfl
    · exact Or.inl hold
    · exact Or.inr ⟨hspares.off, destsApart_self hfor.named, hspares.apart⟩
  · rw [(hnew c₁ hc₁).resolve_left hold₁, (hnew c₂ hc₂).resolve_left hold₂]
  · rw [hd]
    exact SinkFile.create_keeps c.dest x.1.sizeBytes r.offering.chunkSize x.2.sink
      ((hL.bound y (List.mem_of_getElem? hy)).named fs hfs)
  · have hji : j < i := by
      rcases Nat.lt_or_gt_of_ne hne with hlt' | hgt
      · exact hlt'
      · have hlast := (List.getElem?_eq_some_iff.1 hy).1
        rw [hL.returned i r hr (by omega)] at hret
        cases hret
    have hy' := List.mem_of_getElem? hy
    refine (hL.bound y hy').undisturbed (fun fs hfs => ?_) fun fs hfs => ?_
    · -- were it the file that is opened, it would be a later reception's now
      rw [hd]
      refine SinkFile.create_untouched h.disk _ _ _ fun hpath => hsup ?_
      refine ⟨y, fs, c, ?_, hfs, ⟨i, r', hji, ?_, ?_⟩, hpath.symm⟩
      · rw [Host.put, List.getElem?_set, if_neg (Ne.symm hne), hy]
      · rw [Host.put, List.getElem?_set, if_pos rfl, if_pos hlt]
      · rw [hopened]
        exact List.mem_cons_self
    · obtain ⟨c', hc', hmade⟩ := (hL.bound y hy').made fs hfs
      rw [hd, hmade.path]
      exact SinkFile.create_untouched h.disk _ _ _ (hspares.apart y hy' c' hc').tmp.symm

/-- The bits that a look for a record finds are true of the file. -/
theorem Host.Linked.consults {st : OfferState} {x : FileEntry × EntryIo}
    {todo : List (FileEntry × EntryIo)} {c : Checked} {sink : SinkFile} {preexisting : Bool}
    (hphase : r.phase = .offered st (.loading x c sink preexisting) todo) (resume : Bool) :
    (h.put i { r with
      phase := .offered st (Reception.consult blake3 resume h.disk x c sink preexisting) todo }
      h.disk).Linked blake3 T dest := by
  have hret : r.returned = false := by rw [Reception.returned, hphase]
  have hbound := hL.bound r (List.mem_of_getElem? hr)
  have hlinked := hL.linked_of_offered hr hret
  have hfile : r.phase.Has (c.fileState sink (ChunkBitmap.new c.layout.count)) := hphase ▸ .pending rfl
  have hlayout : sink.layout = c.layout := ((hbound.going st _ todo hphase).fresh _ rfl).1
  obtain ⟨hopened, hdest⟩ := (hbound.going st _ todo hphase).loading x c sink preexisting rfl
  obtain ⟨b, hpending, hb⟩ :=
    Reception.consult_pending blake3 resume h.disk x c sink preexisting
  have hsame : (c.fileState sink (ChunkBitmap.new c.layout.count)).SameFile (c.fileState sink b) :=
    ⟨rfl, rfl, rfl, rfl⟩
  have hwf : b.Wf := by
    rcases hb with hload | rfl | rfl
    · exact Resume.load_wf hload
    · exact ChunkBitmap.wf_new _
    · exact ChunkBitmap.wf_new _
  refine hL.inside hcf hr hret rfl (hbound.goOn hphase rfl hpending hsame hwf
    (Reception.consult_ne_loading blake3 resume h.disk x c sink preexisting))
    (hlinked.goOn hphase hpending fun hpath => ?_)
  rcases hb with hload | rfl | rfl
  · have hpath : c.dest = dest := hdest.symm.trans hpath
    subst hpath
    obtain ⟨-, hcount, content, hcontent, hbits⟩ :=
      hL.record.load hcf (hbound.opened c hopened).2.commits hload
    have hnode : h.disk.node c.dest = some (.file sink.ino) := hdest ▸ hbound.named _ hfile
    obtain rfl := Option.some.inj ((Disk.contents_of_node hnode).symm.trans hcontent)
    exact ⟨hcount, hbits⟩
  · exact ⟨rfl, Resume.truthful_new _ _ _ _⟩
  · exact ⟨congrArg ChunkLayout.count hlayout, Resume.truthful_new _ _ _ _⟩

/-- A chunk that verifies is in the file. -/
theorem Host.Linked.verifies {st : OfferState} {x : FileEntry × EntryIo}
    {todo : List (FileEntry × EntryIo)} {c : Checked} {sink : SinkFile} {b b' : ChunkBitmap}
    {index : Nat} (hphase : r.phase = .offered st (.rebuilding x c sink b index) todo)
    (hstep : Resume.rebuildStep blake3 h.disk sink c.chunkHashes x.2.readable b index = .ok b') :
    (h.put i { r with phase := .offered st (.rebuilding x c sink b' (index + 1)) todo }
      h.disk).Linked blake3 T dest := by
  have hret : r.returned = false := by rw [Reception.returned, hphase]
  have hbound := hL.bound r (List.mem_of_getElem? hr)
  have hgoing := hbound.going st _ todo hphase
  have hlinked := hL.linked_of_offered hr hret
  have hfile : r.phase.Has (c.fileState sink b) := hphase ▸ .pending rfl
  have hlayout : sink.layout = c.layout := (hgoing.fresh _ rfl).1
  have hwf : b.Wf := hgoing.wf _ (.pending rfl)
  have hwf' : b'.Wf := by
    rcases Resume.rebuildStep_ok hstep with ⟨hset, -⟩ | ⟨rfl, -⟩
    · exact hwf.set hset
    · exact hwf
  refine hL.inside hcf hr hret rfl (hbound.goOn hphase rfl rfl ⟨rfl, rfl, rfl, rfl⟩ hwf'
    fun _ _ _ _ => OfferPc.noConfusion) (hlinked.goOn hphase rfl fun hpath => ?_)
  obtain ⟨hcount, hbits⟩ := hlinked.going st _ todo hphase _ hfile hpath
  rcases Resume.rebuildStep_ok hstep with ⟨hset, -, hheld⟩ | ⟨rfl, -⟩
  · refine ⟨(ChunkBitmap.count_of_set hset).trans hcount, fun k hk => ?_⟩
    rw [Checked.fileState, ChunkBitmap.has_of_set hwf hset, Bool.or_eq_true, decide_eq_true_eq] at hk
    rcases hk with hk | rfl
    · exact hbits k hk
    · show ChunkHeld blake3 c.layout c.chunkHashes (h.disk.data sink.ino) k
      rw [← hlayout]
      exact hheld
  · exact ⟨hcount, hbits⟩

/-- **Every step of a reception that spares the record keeps a host linked.** -/
theorem Host.Linked.reception (hname : Named dest) {a : ReceptionAct}
    (hmove : ReceptionMove blake3 r h.disk a r' d) (hspares : h.SparesStep blake3 dest i r a) :
    (h.put i r' d).Linked blake3 T dest := by
  have hbound := hL.bound r (List.mem_of_getElem? hr)
  have hoffered : ∀ {st pc todo}, r.phase = .offered st pc todo → r.returned = false :=
    fun hphase => by rw [Reception.returned, hphase]
  cases hmove with
  | @answers st hphase =>
      have hlinked := hL.linked_of_offered hr (hoffered hphase)
      have hrmem := List.mem_of_getElem? hr
      exact hL.inside hcf hr (hoffered hphase) rfl (hbound.answer hphase _ _ _)
        (hlinked.answer hbound hphase hL.record (fun c hc c' hc' => hL.apart r hrmem r hrmem c hc c' hc')
          (hL.off r hrmem) _ _ _)
  | refuses hphase error =>
      exact hL.inside hcf hr (hoffered hphase) rfl (.refused r.opened error hbound.opened)
        (.refused r.opened error)
  | @fails st x todo c d' error hphase hcheck hcreate =>
      exact hL.opens hcf hr hphase hcheck (hspares st x todo c hphase hcheck) (by rw [hcreate]) rfl
        (.refused (c :: r.opened) error (hbound.opens hphase hcheck)) (.refused (c :: r.opened) error)
  | @creates st x todo c d' sink hphase hcheck hcreate =>
      have hlinked := hL.linked_of_offered hr (hoffered hphase)
      exact hL.opens hcf hr hphase hcheck (hspares st x todo c hphase hcheck) (by rw [hcreate]) rfl
        (hbound.create hphase hcheck hcreate _) (hlinked.create hphase hcheck hcreate _ hbound)
  | consults hphase => exact hL.consults hcf hr hphase _
  | verifies hphase hindex hstep => exact hL.verifies hcf hr hphase hstep
  | verifyFails hphase error =>
      exact hL.inside hcf hr (hoffered hphase) rfl (.refused r.opened error hbound.opened)
        (.refused r.opened error)
  | @verified st x todo c sink bitmap index hphase =>
      have hlinked := hL.linked_of_offered hr (hoffered hphase)
      refine hL.inside hcf hr (hoffered hphase) rfl (hbound.goOn hphase rfl rfl ⟨rfl, rfl, rfl, rfl⟩
        ((hbound.going st _ todo hphase).wf _ (.pending rfl)) fun _ _ _ _ => OfferPc.noConfusion)
        (hlinked.goOn hphase rfl fun hpath => ?_)
      exact hlinked.going st _ todo hphase _ (hphase ▸ .pending rfl) hpath
  | notes hphase =>
      have hlinked := hL.linked_of_offered hr (hoffered hphase)
      exact hL.inside hcf hr (hoffered hphase) rfl (hbound.note hphase _) (hlinked.note hphase _)
  | unsent hphase error =>
      exact hL.inside hcf hr (hoffered hphase) rfl (.refused r.opened error hbound.opened)
        (.refused r.opened error)
  | session hphase heff => exact hL.session hcf hr hphase hname heff hspares

end Offer

section Run

variable {blake3 : Blake3} {T : Set Hash} {dest : FilePath} {h h' : Host}

/-- A process that has just started knows nothing. -/
theorem Host.Linked.fresh {d : FileSystem} (hrecord : RecordTrue blake3 T dest d) :
    (Host.fresh d).Linked blake3 T dest where
  record := hrecord
  returned := fun i r hr => by cases hr
  apart := fun r hr => absurd hr List.not_mem_nil
  off := fun r hr => absurd hr List.not_mem_nil
  bound := fun r hr => absurd hr List.not_mem_nil
  linked := fun i r hr => by cases hr

/-- A reception that has just started has nothing open. -/
theorem Reception.not_has_start (o : Offering) (fs : FileState) : ¬ (start o).phase.Has fs := by
  intro hfs
  cases hfs with
  | noted hst => cases hst
  | pending hp => cases hp

theorem Reception.bound_start {o : Offering} (hdigests : o.DigestsIn blake3 T) (d : FileSystem) :
    (start o).Bound blake3 T d where
  opened := fun c hc => absurd hc List.not_mem_nil
  made := fun fs hfs => absurd hfs (not_has_start o fs)
  named := fun fs hfs => absurd hfs (not_has_start o fs)
  going := by
    intro st pc todo heq
    cases heq
    exact ⟨hdigests, fun x hx => hx, fun c hc => absurd hc List.not_mem_nil,
      fun id id' fs fs' hfs => (by cases hfs), fun fs hfs => (by cases hfs),
      fun x c sink preexisting heq => (by cases heq), fun fs hfs => absurd hfs (not_has_start o fs)⟩
  receiving := fun p s heq => by cases heq

theorem Reception.linked_start (o : Offering) (d : FileSystem) :
    (start o).Linked blake3 T dest d where
  going := fun st pc todo _ fs hfs => absurd hfs (not_has_start o fs)
  receiving := fun p s heq => by cases heq

/-- The next offer is made when all receptions before it have returned. -/
theorem Host.Linked.offer (hL : h.Linked blake3 T dest) {o : Offering}
    (hdigests : o.DigestsIn blake3 T) (hreturned : ∀ r ∈ h.receptions, r.returned = true) :
    Host.Linked blake3 T dest { h with receptions := h.receptions ++ [Reception.start o] } := by
  have hget : ∀ {j : Nat} {y}, (h.receptions ++ [Reception.start o])[j]? = some y →
      h.receptions[j]? = some y ∨ y = Reception.start o := by
    intro j y hy
    rcases Nat.lt_or_ge j h.receptions.length with hlt | hge
    · rw [List.getElem?_append_left hlt] at hy
      exact Or.inl hy
    · rw [List.getElem?_append_right hge] at hy
      exact Or.inr (List.mem_singleton.1 (List.mem_of_getElem? hy))
  have hmem : ∀ y ∈ h.receptions ++ [Reception.start o], y ∈ h.receptions ∨ y = Reception.start o :=
    fun y hy => (List.mem_append.1 hy).imp_right List.mem_singleton.1
  have hopened : ∀ y ∈ h.receptions ++ [Reception.start o], ∀ c ∈ y.opened, y ∈ h.receptions := by
    intro y hy c hc
    rcases hmem y hy with hy | rfl
    · exact hy
    · cases hc
  refine ⟨hL.record, fun j y hy hlast => ?_, fun y hy y' hy' c hc c' hc' => ?_, fun y hy c hc => ?_,
    fun y hy => ?_, fun j y hy hsup => ?_⟩
  · have hlt : j < h.receptions.length := by simpa using hlast
    rw [List.getElem?_append_left hlt] at hy
    exact hreturned y (List.mem_of_getElem? hy)
  · exact hL.apart y (hopened y hy c hc) y' (hopened y' hy' c' hc') c hc c' hc'
  · exact hL.off y (hopened y hy c hc) c hc
  · rcases hmem y hy with hy | rfl
    · exact hL.bound y hy
    · exact Reception.bound_start hdigests h.disk
  · rcases hget hy with hy | rfl
    · refine hL.linked j y hy fun ⟨z, fs, c, hz, hfs, ⟨k, u, hjk, hu, hc⟩, hdest⟩ => hsup ?_
      have hgrows : ∀ {k : Nat} {u}, h.receptions[k]? = some u →
          (h.receptions ++ [Reception.start o])[k]? = some u := fun hu => by
        rw [List.getElem?_append_left (List.getElem?_eq_some_iff.1 hu).1, hu]
      exact ⟨z, fs, c, hgrows hz, hfs, ⟨k, u, hjk, hgrows hu, hc⟩, hdest⟩
    · exact Reception.linked_start o h.disk

/-- **Every step that spares the record keeps a host linked.** -/
theorem Host.Linked.step (hcf : CollisionFreeOn blake3 T) (hname : Named dest)
    (hL : h.Linked blake3 T dest) {a : HostAct} (hdigests : a.DigestsIn blake3 T)
    (hspares : h.SparesRecords blake3 dest a) (hstep : h.step blake3 a = some h') :
    h'.Linked blake3 T dest := by
  cases Host.step_moves hstep with
  | offer o hreturned => exact hL.offer hdigests hreturned
  | reception hr hmove => exact hL.reception hcf hr hname hmove (hspares _ hr)
  | kill => exact .fresh hL.record

/-- A disk without a record of `dest`. -/
theorem RecordTrue.of_none {d : FileSystem} (hnone : d.contents (statePath dest) = none) :
    RecordTrue blake3 T dest d := by
  intro raw hraw
  rw [hnone] at hraw
  cases hraw

/-- **Every run whose steps all spare the record keeps a host linked.** -/
theorem Host.Linked.runs (hcf : CollisionFreeOn blake3 T) (hname : Named dest) {as : List HostAct}
    (hL : h.Linked blake3 T dest) (hdigests : ∀ a ∈ as, a.DigestsIn blake3 T)
    (hspares : Run.Meets (Host.step blake3) (Host.SparesRecords blake3 dest) h as)
    (hrun : h.runs blake3 as = some h') : h'.Linked blake3 T dest :=
  Run.invariant_of (I := Host.Linked blake3 T dest)
    (fun _ _ _ hI hC hstep => hI.step hcf hname hC.1 hC.2 hstep) hL
    ((Run.Meets.of_forall hdigests).and hspares) hrun

end Run

end AetherLink
