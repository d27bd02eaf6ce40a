import AetherLink.Core.Control
import AetherLink.Lib.Disk

set_option autoImplicit false

/-! # The receiving side of the I/O pipeline

`SinkFile` is the file being received: created or reopened, its space reserved, then written at
absolute offsets. Whether a system call succeeds is up to the environment and comes in as an
argument (`SinkIo`); a process killed half-way leaves the disk that the failing call would. -/

namespace AetherLink

open Storage

abbrev FilePath : Type := List String

/-- The receiving device's file system. -/
abbrev FileSystem : Type := Disk String

/-- `Path::display`. -/
def display (p : FilePath) : String :=
  "/".intercalate p

/-! ## Reserving space -/

/-- How the two calls of `preallocate` go. A filesystem without block reservation, and one that
    reserves without extending, both show as `reserved := false`. -/
inductive PreallocateIo where
  | done (reserved : Bool)
  | reserveFails
  | setLenFails (reserved : Bool)
  deriving DecidableEq, Repr

/-- `fallocate(fd, 0, 0, size)`: extends the length where the file is shorter. -/
def reserveBlocks (fs : FileSystem) (ino : Nat) (size : Nat) (reserved : Bool) : FileSystem :=
  if reserved then fs.write ino (.setLen (max (fs.data ino).length size)) else fs

/-- Reserves `size` bytes for the file: blocks where the filesystem can, and the length on both
    paths. Asks nothing of the disk when `size` is zero. -/
def preallocate (fs : FileSystem) (ino : Nat) (size : Nat) (io : PreallocateIo) :
    FileSystem × Except Error Unit :=
  if size = 0 then (fs, .ok ())
  else match io with
    | .done reserved =>
        ((reserveBlocks fs ino size reserved).write ino (.setLen size), .ok ())
    | .reserveFails => (fs, .error (.io ("pre-allocating " ++ toString size ++ " bytes")))
    | .setLenFails reserved =>
        (reserveBlocks fs ino size reserved, .error (.io "setting file length"))

/-- The data operations `preallocate` issued. -/
def preallocateOps (fs : FileSystem) (ino : Nat) (size : Nat) (io : PreallocateIo) : List DataOp :=
  let reserve (reserved : Bool) : List DataOp :=
    if reserved then [.setLen (max (fs.data ino).length size)] else []
  if size = 0 then []
  else match io with
    | .done reserved => reserve reserved ++ [.setLen size]
    | .reserveFails => []
    | .setLenFails reserved => reserve reserved

theorem preallocate_fst (fs : FileSystem) (ino size : Nat) (io : PreallocateIo) :
    (preallocate fs ino size io).1 = fs.writes ino (preallocateOps fs ino size io) := by
  unfold preallocate preallocateOps
  split
  · rfl
  · cases io with
    | done reserved => cases reserved <;> rfl
    | reserveFails => rfl
    | setLenFails reserved => cases reserved <;> rfl

/-- Whatever happens, the file is only ever cut or extended to at least `size`. -/
theorem le_of_mem_preallocateOps {fs : FileSystem} {ino size : Nat} {io : PreallocateIo}
    {op : DataOp} (h : op ∈ preallocateOps fs ino size io) : ∃ n, size ≤ n ∧ op = .setLen n := by
  have hreserve : ∀ reserved : Bool,
      op ∈ (if reserved then [DataOp.setLen (max (fs.data ino).length size)] else []) →
        ∃ n, size ≤ n ∧ op = .setLen n := by
    intro reserved hr
    cases reserved with
    | false => simp at hr
    | true => exact ⟨_, Nat.le_max_right _ _, by simpa using hr⟩
  unfold preallocateOps at h
  split at h
  · simp at h
  · cases io with
    | done reserved =>
        rcases List.mem_append.1 h with h | h
        · exact hreserve reserved h
        · exact ⟨size, Nat.le_refl _, by simpa using h⟩
    | reserveFails => simp at h
    | setLenFails reserved => exact hreserve reserved h

/-- A content as `preallocate` leaves it. -/
def sized (c : List UInt8) (size : Nat) : List UInt8 :=
  if size = 0 then c else Bytes.setLen c size

theorem applyAll_preallocateOps {fs : FileSystem} {ino size : Nat} {io : PreallocateIo}
    (h : (preallocate fs ino size io).2 = .ok ()) :
    applyAll (fs.data ino) (preallocateOps fs ino size io) = sized (fs.data ino) size := by
  unfold preallocate at h
  unfold preallocateOps sized
  split at h
  · next hz => rw [if_pos hz, if_pos hz, applyAll_nil]
  · next hz =>
      rw [if_neg hz, if_neg hz]
      cases io with
      | done reserved =>
          cases reserved with
          | false => rfl
          | true => exact Bytes.setLen_setLen_max (fs.data ino) size
      | reserveFails => cases h
      | setLenFails reserved => cases h

/-- The bytes `preallocate` keeps: all of them, unless it cuts the file to its size. -/
theorem byteAt_preallocateOps {fs : FileSystem} {ino size : Nat} {io : PreallocateIo} {pos : Nat}
    (h : ∀ reserved, io = .done reserved →
      Bytes.byteAt (sized (fs.data ino) size) pos = Bytes.byteAt (fs.data ino) pos) :
    Bytes.byteAt (applyAll (fs.data ino) (preallocateOps fs ino size io)) pos
      = Bytes.byteAt (fs.data ino) pos := by
  have hreserve : ∀ reserved : Bool, Bytes.byteAt (applyAll (fs.data ino)
      (if reserved then [DataOp.setLen (max (fs.data ino).length size)] else [])) pos
        = Bytes.byteAt (fs.data ino) pos := by
    intro reserved
    cases reserved with
    | false => rfl
    | true =>
        show Bytes.byteAt (Bytes.setLen (fs.data ino) (max (fs.data ino).length size)) pos = _
        rw [Bytes.byteAt_setLen]
        split
        · rfl
        · rw [Bytes.byteAt, List.getD_eq_getElem?_getD, List.getElem?_eq_none (by omega)]
          rfl
  by_cases hsize : size = 0
  · simp [preallocateOps, hsize]
  · cases io with
    | done reserved =>
        rw [applyAll_preallocateOps (by rw [preallocate, if_neg hsize])]
        exact h reserved rfl
    | reserveFails => simp [preallocateOps, hsize]
    | setLenFails reserved => simpa [preallocateOps, hsize] using hreserve reserved

/-! ## Sink files -/

/-- A file being received: its name, the handle it is written through, its geometry. -/
structure SinkFile where
  path : FilePath
  ino : Nat
  layout : ChunkLayout
  deriving DecidableEq

/-- How the system calls of `SinkFile::create` go. -/
inductive SinkIo where
  /-- `create_dir_all` fails after making this many components. -/
  | mkdirFails (made : Nat)
  | openFails
  | opened (io : PreallocateIo)
  deriving DecidableEq, Repr

namespace SinkFile

/-- Creates or reopens the staging file and reserves its space; the disk it leaves, and the sink or
    the error. -/
def create (fs : FileSystem) (path : FilePath) (size : UInt64) (chunkSize : UInt32) (io : SinkIo) :
    FileSystem × Except Error SinkFile :=
  let parent := path.dropLast
  match io with
  | .mkdirFails made =>
      ((fs.mkdirAll [] (parent.take made)).1, .error (.io ("creating " ++ display parent)))
  | .openFails => ((fs.mkdirAll [] parent).1, .error (.io ("creating " ++ display path)))
  | .opened pre =>
      match fs.mkdirAll [] parent with
      | (made, false) => (made, .error (.io ("creating " ++ display parent)))
      | (made, true) =>
          match made.openRW path with
          | none => (made, .error (.io ("creating " ++ display path)))
          | some (opened, ino) =>
              match preallocate opened ino size.toNat pre with
              | (reserved, .error e) => (reserved, .error e)
              | (reserved, .ok ()) =>
                  match ChunkLayout.new size chunkSize with
                  | .error e => (reserved, .error (.wire e))
                  | .ok layout => (reserved, .ok { path := path, ino := ino, layout := layout })

/-- Reads a chunk back. The read is exact: one that runs past the end of the file fails, as does one
    the operating system refuses. -/
def readChunk (fs : FileSystem) (sink : SinkFile) (readable : Nat → Bool) (index : Nat) :
    Except Error (List UInt8) :=
  match sink.layout.range index with
  | .error e => .error (.wire e)
  | .ok (offset, len) =>
      let content := fs.data sink.ino
      if readable index ∧ offset + len ≤ content.length then .ok (Bytes.slice content offset len)
      else .error (.io ("reading chunk " ++ toString index))

/-- What `create` does to the disk, however it ends: directories first, and then, if it gets that
    far, the file is opened and its space reserved. -/
theorem create_fst (fs : FileSystem) (path : FilePath) (size : UInt64) (chunkSize : UInt32)
    (io : SinkIo) :
    ∃ made, Disk.SameFiles fs made ∧
      ((create fs path size chunkSize io).1 = made ∨
        ∃ opened ino pre, io = .opened pre ∧ made.openRW path = some (opened, ino) ∧
          (create fs path size chunkSize io).1
            = opened.writes ino (preallocateOps opened ino size.toNat pre)) := by
  cases io with
  | mkdirFails n => exact ⟨_, Disk.sameFiles_mkdirAll fs [] _, Or.inl rfl⟩
  | openFails => exact ⟨_, Disk.sameFiles_mkdirAll fs [] _, Or.inl rfl⟩
  | opened pre =>
      refine ⟨(fs.mkdirAll [] path.dropLast).1, Disk.sameFiles_mkdirAll fs [] _, ?_⟩
      simp only [create]
      rcases hmk : fs.mkdirAll [] path.dropLast with ⟨made, okay⟩
      cases okay with
      | false => exact Or.inl rfl
      | true =>
          cases hopen : made.openRW path with
          | none => exact Or.inl (by simp only [hopen])
          | some r =>
              obtain ⟨opened, ino⟩ := r
              refine Or.inr ⟨opened, ino, pre, rfl, rfl, ?_⟩
              rw [← preallocate_fst]
              rcases hpre : preallocate opened ino size.toNat pre with ⟨reserved, res⟩
              cases res with
              | error e => simp only [hopen, hpre]
              | ok u =>
                  cases hl : ChunkLayout.new size chunkSize with
                  | error e => simp only [hopen, hpre]
                  | ok layout => simp only [hopen, hpre]

/-- With a valid chunk size, `create` fails for a system call only. -/
theorem create_error {fs fs' : FileSystem} {path : FilePath} {size : UInt64} {chunkSize : UInt32}
    {io : SinkIo} {e : Error} {layout : ChunkLayout}
    (hlayout : ChunkLayout.new size chunkSize = .ok layout)
    (h : create fs path size chunkSize io = (fs', .error e)) : ∃ doing, e = .io doing := by
  have hpre : ∀ opened ino pre reserved e, preallocate opened ino size.toNat pre = (reserved, .error e)
      → ∃ doing, e = .io doing := by
    intro opened ino pre reserved e hpre
    unfold preallocate at hpre
    split at hpre
    · cases hpre
    · split at hpre <;> cases hpre <;> exact ⟨_, rfl⟩
  unfold create at h
  simp only at h
  split at h
  · cases h
    exact ⟨_, rfl⟩
  · cases h
    exact ⟨_, rfl⟩
  · split at h
    · cases h
      exact ⟨_, rfl⟩
    · split at h
      · cases h
        exact ⟨_, rfl⟩
      · split at h
        · next hp =>
            cases h
            exact hpre _ _ _ _ _ hp
        · rw [hlayout] at h
          cases h

/-- What a sink and its disk are when `create` succeeds. -/
structure Created (fs : FileSystem) (path : FilePath) (size : UInt64) (chunkSize : UInt32)
    (fs' : FileSystem) (sink : SinkFile) : Prop where
  path_eq : sink.path = path
  layout_ok : ChunkLayout.new size chunkSize = .ok sink.layout
  effect : ∃ made opened ops, Disk.SameFiles fs made ∧ made.openRW path = some (opened, sink.ino) ∧
    (∀ op ∈ ops, ∃ n, size.toNat ≤ n ∧ op = DataOp.setLen n) ∧
    applyAll (opened.data sink.ino) ops = sized (opened.data sink.ino) size.toNat ∧
    fs' = opened.writes sink.ino ops

theorem create_ok {fs fs' : FileSystem} {path : FilePath} {size : UInt64} {chunkSize : UInt32}
    {io : SinkIo} {sink : SinkFile} (h : create fs path size chunkSize io = (fs', .ok sink)) :
    Created fs path size chunkSize fs' sink := by
  cases io with
  | mkdirFails n => simp [create] at h
  | openFails => simp [create] at h
  | opened pre =>
      simp only [create] at h
      rcases hmk : fs.mkdirAll [] path.dropLast with ⟨made, okay⟩
      have hsame := Disk.sameFiles_mkdirAll fs [] path.dropLast
      rw [hmk] at h hsame
      cases okay with
      | false => simp at h
      | true =>
          cases hopen : made.openRW path with
          | none => simp [hopen] at h
          | some r =>
              obtain ⟨opened, ino⟩ := r
              rcases hpre : preallocate opened ino size.toNat pre with ⟨reserved, res⟩
              cases res with
              | error e => simp [hopen, hpre] at h
              | ok u =>
                  cases hl : ChunkLayout.new size chunkSize with
                  | error e => simp [hopen, hpre, hl] at h
                  | ok layout =>
                      simp only [hopen, hpre, hl, Prod.mk.injEq, Except.ok.injEq] at h
                      obtain ⟨rfl, rfl⟩ := h
                      have hok : (preallocate opened ino size.toNat pre).2 = .ok () := by rw [hpre]
                      refine ⟨rfl, hl, made, opened, preallocateOps opened ino size.toNat pre,
                        hsame, hopen, fun op hop => le_of_mem_preallocateOps hop,
                        applyAll_preallocateOps hok, ?_⟩
                      rw [← preallocate_fst, hpre]

namespace Created

variable {fs fs' : FileSystem} {path : FilePath} {size : UInt64} {chunkSize : UInt32}
  {sink : SinkFile}

theorem node (h : Created fs path size chunkSize fs' sink) :
    fs'.node path = some (.file sink.ino) := by
  obtain ⟨made, opened, ops, -, hopen, -, -, rfl⟩ := h.effect
  rw [Disk.node_writes]
  exact Disk.node_of_openRW hopen

/-- Every other regular file keeps its name and its data. -/
theorem node_of_ne (h : Created fs path size chunkSize fs' sink) {q : FilePath} (hq : q ≠ path)
    (i : Nat) : fs'.node q = some (.file i) ↔ fs.node q = some (.file i) := by
  obtain ⟨made, opened, ops, hsame, hopen, -, -, rfl⟩ := h.effect
  rw [Disk.node_writes, Disk.node_of_openRW_of_ne hopen hq]
  exact hsame.node q i

theorem contents (h : Created fs path size chunkSize fs' sink) :
    fs'.contents path = some (sized ((fs.contents path).getD []) size.toNat) := by
  have hnode := h.node
  obtain ⟨made, opened, ops, hsame, hopen, -, hops, hfs⟩ := h.effect
  rw [Disk.contents_of_node hnode, hfs, Disk.data_writes_self, hops,
    Disk.data_of_openRW_self hopen, hsame.contents]

theorem data (h : Created fs path size chunkSize fs' sink) :
    fs'.data sink.ino = sized ((fs.contents path).getD []) size.toNat := by
  have := h.contents
  rw [Disk.contents_of_node h.node] at this
  exact Option.some.inj this

/-- The inode the sink writes to is no other path's. -/
theorem ino_ne (h : Created fs path size chunkSize fs' sink) {q : FilePath} (hq : q ≠ path) {i : Nat}
    (hi : fs.node q = some (.file i)) : i ≠ sink.ino := by
  rintro rfl
  exact hq (fs'.node_inj q path _ ((h.node_of_ne hq _).2 hi) h.node)

theorem data_of_node (h : Created fs path size chunkSize fs' sink) {q : FilePath} (hq : q ≠ path)
    {i : Nat} (hi : fs.node q = some (.file i)) :
    fs'.data i = fs.data i ∧ fs'.durable i = fs.durable i ∧ fs'.pending i = fs.pending i := by
  have hne := h.ino_ne hq hi
  obtain ⟨made, opened, ops, hsame, hopen, -, -, rfl⟩ := h.effect
  have hlt : i < made.nextIno := hsame.nextIno ▸ fs.node_lt q i hi
  obtain ⟨h1, h2, h3⟩ := Disk.data_of_openRW hopen hlt
  rw [Disk.data_writes_of_ne _ _ hne, Disk.durable_writes, Disk.pending_writes, if_neg hne, h1, h2,
    h3, hsame.data, hsame.durable, hsame.pending]
  exact ⟨rfl, rfl, rfl⟩

theorem contents_of_ne (h : Created fs path size chunkSize fs' sink) {q : FilePath}
    (hq : q ≠ path) : fs'.contents q = fs.contents q := by
  have hnode := h.node_of_ne hq
  cases hf : fs.node q with
  | none =>
      cases hf' : fs'.node q with
      | none => simp [Disk.contents, hf, hf']
      | some n =>
          cases n with
          | dir => simp [Disk.contents, hf, hf']
          | file i => exact absurd ((hnode i).1 hf') (by simp [hf])
  | some n =>
      cases n with
      | file i =>
          rw [Disk.contents_of_node hf, Disk.contents_of_node ((hnode i).2 hf),
            (h.data_of_node hq hf).1]
      | dir =>
          cases hf' : fs'.node q with
          | none => simp [Disk.contents, hf, hf']
          | some n =>
              cases n with
              | dir => simp [Disk.contents, hf, hf']
              | file i => exact absurd ((hnode i).1 hf') (by simp [hf])

end Created

end SinkFile

end AetherLink
