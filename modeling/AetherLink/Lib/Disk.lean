import AetherLink.Lib.Bytes
import Mathlib.Logic.Function.Basic

set_option autoImplicit false

/-! # A directory tree of regular files, with fsync and power loss

A disk maps paths to nodes and inodes to contents, so that an open handle (an inode) and a name (a
path) are different things: renaming or removing a name does not touch what a handle writes to.

Each inode keeps the list of data operations applied to it since the last boot. What a read returns
(`Disk.data`) is the whole list applied to the content at boot; what the device holds
(`Disk.durable`) is the prefix that an fsync has made durable. A power loss keeps that prefix and an
arbitrary subset of the rest (`Disk.crash`).

Directory changes (creating, renaming and removing names) are atomic and survive a power loss.
There are no hard or symbolic links: two paths never name one inode (`Disk.node_inj`). -/

namespace Storage

open Bytes

/-! ## Operations on one content -/

/-- What can be done to the data of an open file. -/
inductive DataOp where
  | setLen (n : Nat)
  | pwrite (off : Nat) (bs : List UInt8)
  deriving DecidableEq, Repr

def DataOp.apply (c : List UInt8) : DataOp → List UInt8
  | .setLen n => Bytes.setLen c n
  | .pwrite off bs => Bytes.pwrite c off bs

/-- A list of operations, first to last. -/
def applyAll (c : List UInt8) (ops : List DataOp) : List UInt8 :=
  ops.foldl DataOp.apply c

@[simp] theorem applyAll_nil (c : List UInt8) : applyAll c [] = c := rfl

theorem applyAll_append (c : List UInt8) (ops ops' : List DataOp) :
    applyAll c (ops ++ ops') = applyAll (applyAll c ops) ops' := by
  simp [applyAll, List.foldl_append]

/-- What every operation of a list keeps, the whole list keeps. -/
theorem applyAll_invariant {P : List UInt8 → Prop} {ops : List DataOp}
    (h : ∀ op ∈ ops, ∀ c, P c → P (op.apply c)) {c : List UInt8} (hc : P c) :
    P (applyAll c ops) := by
  induction ops generalizing c with
  | nil => exact hc
  | cons op ops ih =>
      exact ih (fun op' hop' => h op' (List.mem_cons_of_mem _ hop'))
        (h op List.mem_cons_self c hc)

/-- An operation does the same to the byte at a position in contents that agree there. -/
theorem DataOp.byteAt_apply_congr {c c' : List UInt8} {pos : Nat} (h : byteAt c pos = byteAt c' pos)
    (op : DataOp) : byteAt (op.apply c) pos = byteAt (op.apply c') pos := by
  cases op with
  | setLen n => simp only [apply, byteAt_setLen, h]
  | pwrite off bs => simp only [apply, byteAt_pwrite, h]

/-- The operation writes the byte at `pos`. -/
def DataOp.writesAt (pos : Nat) : DataOp → Bool
  | .setLen _ => false
  | .pwrite off bs => off ≤ pos && pos < off + bs.length

/-- How many of the operations write the byte at `pos`. -/
def writeCount (ops : List DataOp) (pos : Nat) : Nat :=
  ops.countP (DataOp.writesAt pos)

@[simp] theorem writeCount_nil (pos : Nat) : writeCount [] pos = 0 := rfl

theorem writeCount_append (ops ops' : List DataOp) (pos : Nat) :
    writeCount (ops ++ ops') pos = writeCount ops pos + writeCount ops' pos :=
  List.countP_append

theorem writeCount_pwrite (off : Nat) (bs : List UInt8) (pos : Nat) :
    writeCount [.pwrite off bs] pos = if off ≤ pos ∧ pos < off + bs.length then 1 else 0 := by
  simp [writeCount, List.countP_singleton, DataOp.writesAt]

/-- The operation writes bytes of `src`, each in its own place. -/
def DataOp.Copies (src : List UInt8) : DataOp → Prop
  | .setLen _ => False
  | .pwrite off bs => Carries src off bs

/-- A copied byte is there afterwards, and one that is there stays. -/
theorem DataOp.Copies.getElem?_apply {src cs : List UInt8} {op : DataOp} (h : op.Copies src)
    {pos : Nat} (hlt : pos < src.length)
    (hpos : cs[pos]? = src[pos]? ∨ op.writesAt pos = true) : (op.apply cs)[pos]? = src[pos]? := by
  cases op with
  | setLen n => exact h.elim
  | pwrite off bs =>
      rw [apply, getElem?_pwrite]
      by_cases hin : off ≤ pos ∧ pos < off + bs.length
      · have hne : bs ≠ [] := by
          rintro rfl
          simp only [List.length_nil] at hin
          omega
        have hbyte := h (pos - off) (by omega)
        rw [if_neg hne, if_neg (by omega), if_pos hin.2, ← hbyte, Nat.add_sub_cancel' hin.1]
      · have hold : cs[pos]? = src[pos]? := by
          refine hpos.resolve_right fun hwrites => hin ?_
          simpa [writesAt] using hwrites
        have hlen : pos < cs.length := by
          rw [List.getElem?_eq_getElem hlt] at hold
          exact (List.getElem?_eq_some_iff.1 hold).1
        split
        · exact hold
        · split
          · rw [← hold, getElem?_of_lt hlen]
          · rw [if_neg (by omega)]
            exact hold

/-- **What is copied is there**: after operations that copy from `src`, a byte is the one of `src`
    if it was before or one of the operations writes it. -/
theorem getElem?_applyAll_of_copies {src : List UInt8} {ops : List DataOp}
    (h : ∀ op ∈ ops, op.Copies src) {cs : List UInt8} {pos : Nat} (hlt : pos < src.length)
    (hpos : cs[pos]? = src[pos]? ∨ 0 < writeCount ops pos) :
    (applyAll cs ops)[pos]? = src[pos]? := by
  induction ops generalizing cs with
  | nil => exact hpos.resolve_right (Nat.lt_irrefl _)
  | cons op ops ih =>
      have hop := h op List.mem_cons_self
      refine ih (fun op' hop' => h op' (List.mem_cons_of_mem _ hop')) ?_
      by_cases hnow : cs[pos]? = src[pos]? ∨ op.writesAt pos = true
      · exact Or.inl (hop.getElem?_apply hlt hnow)
      · obtain ⟨hdiff, hmiss⟩ := not_or.1 hnow
        have hrest := hpos.resolve_left hdiff
        rw [writeCount, List.countP_cons_of_neg hmiss] at hrest
        exact Or.inr hrest

/-- The operations at the positions the mask keeps. -/
def keepMasked (mask : Nat → Bool) (ops : List DataOp) : List DataOp :=
  (ops.zipIdx.filter fun x => mask x.2).map Prod.fst

theorem keepMasked_sublist (mask : Nat → Bool) (ops : List DataOp) :
    (keepMasked mask ops).Sublist ops := by
  have h := (List.filter_sublist (p := fun x : DataOp × Nat => mask x.2) (l := ops.zipIdx)).map
    Prod.fst
  rwa [List.zipIdx_map_fst] at h

theorem mem_of_mem_keepMasked {mask : Nat → Bool} {ops : List DataOp} {op : DataOp}
    (h : op ∈ keepMasked mask ops) : op ∈ ops :=
  (keepMasked_sublist mask ops).subset h

/-! ## The disk -/

/-- What a path names. -/
inductive Node where
  | file (ino : Nat)
  | dir
  deriving DecidableEq, Repr

structure Disk (ν : Type) where
  /-- What each path names, if it exists. -/
  node : List ν → Option Node
  /-- The next unused inode number. -/
  nextIno : Nat
  /-- Content at boot. -/
  base : Nat → List UInt8
  /-- Data operations since boot, first to last. -/
  log : Nat → List DataOp
  /-- How many of them an fsync has made durable. -/
  synced : Nat → Nat
  node_inj : ∀ p q i, node p = some (.file i) → node q = some (.file i) → p = q
  node_lt : ∀ p i, node p = some (.file i) → i < nextIno
  synced_le : ∀ i, synced i ≤ (log i).length

namespace Disk

variable {ν : Type}

/-- A disk without any file. -/
def empty : Disk ν where
  node := fun _ => none
  nextIno := 0
  base := fun _ => []
  log := fun _ => []
  synced := fun _ => 0
  node_inj := fun _ _ _ h => nomatch h
  node_lt := fun _ _ h => nomatch h
  synced_le := fun _ => Nat.le_refl 0

/-- What a read of the inode returns. -/
def data (d : Disk ν) (i : Nat) : List UInt8 :=
  applyAll (d.base i) (d.log i)

/-- What the device holds of the inode. -/
def durable (d : Disk ν) (i : Nat) : List UInt8 :=
  applyAll (d.base i) ((d.log i).take (d.synced i))

/-- The data operations no fsync has covered yet. -/
def pending (d : Disk ν) (i : Nat) : List DataOp :=
  (d.log i).drop (d.synced i)

/-- The content of the regular file at a path. -/
def contents (d : Disk ν) (p : List ν) : Option (List UInt8) :=
  match d.node p with
  | some (.file i) => some (d.data i)
  | _ => none

/-- `Path::exists`: a file or a directory. -/
def pathExists (d : Disk ν) (p : List ν) : Bool :=
  (d.node p).isSome

theorem data_eq_durable (d : Disk ν) (i : Nat) :
    d.data i = applyAll (d.durable i) (d.pending i) := by
  rw [data, durable, pending, ← applyAll_append, List.take_append_drop]

theorem contents_eq_some {d : Disk ν} {p : List ν} {c : List UInt8} (h : d.contents p = some c) :
    ∃ i, d.node p = some (.file i) ∧ c = d.data i := by
  unfold contents at h
  split at h
  · next i hi => exact ⟨i, hi, (Option.some.inj h).symm⟩
  · cases h

theorem contents_of_node {d : Disk ν} {p : List ν} {i : Nat} (h : d.node p = some (.file i)) :
    d.contents p = some (d.data i) := by
  simp [contents, h]

/-! ## Data operations -/

/-- Issue one data operation on an open file. -/
def write (d : Disk ν) (i : Nat) (op : DataOp) : Disk ν :=
  { d with
    log := Function.update d.log i (d.log i ++ [op])
    synced_le := by
      intro j
      by_cases hj : j = i
      · subst hj
        have := d.synced_le j
        simp only [Function.update_self, List.length_append, List.length_singleton]
        omega
      · rw [Function.update_of_ne hj]
        exact d.synced_le j }

/-- fsync: everything issued on the inode so far becomes durable. -/
def sync (d : Disk ν) (i : Nat) : Disk ν :=
  { d with
    synced := Function.update d.synced i (d.log i).length
    synced_le := by
      intro j
      by_cases hj : j = i
      · subst hj
        rw [Function.update_self]
      · rw [Function.update_of_ne hj]
        exact d.synced_le j }

@[simp] theorem node_write (d : Disk ν) (i : Nat) (op : DataOp) (p : List ν) :
    (d.write i op).node p = d.node p := rfl

theorem log_write (d : Disk ν) (i j : Nat) (op : DataOp) :
    (d.write i op).log j = if j = i then d.log i ++ [op] else d.log j := by
  simp only [write, Function.update_apply]

theorem data_write (d : Disk ν) (i j : Nat) (op : DataOp) :
    (d.write i op).data j = if j = i then op.apply (d.data i) else d.data j := by
  unfold data
  rw [log_write]
  by_cases hj : j = i
  · subst hj
    rw [if_pos rfl, if_pos rfl, applyAll_append]
    rfl
  · rw [if_neg hj, if_neg hj]
    rfl

theorem data_write_self (d : Disk ν) (i : Nat) (op : DataOp) :
    (d.write i op).data i = op.apply (d.data i) := by
  rw [data_write, if_pos rfl]

theorem data_write_of_ne (d : Disk ν) {i j : Nat} (op : DataOp) (h : j ≠ i) :
    (d.write i op).data j = d.data j := by
  rw [data_write, if_neg h]

@[simp] theorem durable_write (d : Disk ν) (i j : Nat) (op : DataOp) :
    (d.write i op).durable j = d.durable j := by
  unfold durable
  rw [log_write]
  by_cases hj : j = i
  · subst hj
    have hkeep : (d.log j ++ [op]).take (d.synced j) = (d.log j).take (d.synced j) :=
      List.take_append_of_le_length (d.synced_le j)
    rw [if_pos rfl]
    exact congrArg (applyAll (d.base j)) hkeep
  · rw [if_neg hj]
    rfl

theorem pending_write (d : Disk ν) (i j : Nat) (op : DataOp) :
    (d.write i op).pending j = if j = i then d.pending i ++ [op] else d.pending j := by
  unfold pending
  rw [log_write]
  by_cases hj : j = i
  · subst hj
    rw [if_pos rfl, if_pos rfl]
    exact List.drop_append_of_le_length (d.synced_le j)
  · rw [if_neg hj, if_neg hj]
    rfl

@[simp] theorem node_sync (d : Disk ν) (i : Nat) (p : List ν) : (d.sync i).node p = d.node p := rfl

@[simp] theorem log_sync (d : Disk ν) (i j : Nat) : (d.sync i).log j = d.log j := rfl

@[simp] theorem data_sync (d : Disk ν) (i j : Nat) : (d.sync i).data j = d.data j := rfl

theorem durable_sync (d : Disk ν) (i j : Nat) :
    (d.sync i).durable j = if j = i then d.data i else d.durable j := by
  by_cases hj : j = i
  · subst hj
    simp [durable, sync, data]
  · simp [durable, sync, hj]

theorem pending_sync (d : Disk ν) (i j : Nat) :
    (d.sync i).pending j = if j = i then [] else d.pending j := by
  by_cases hj : j = i
  · subst hj
    simp [pending, sync]
  · simp [pending, sync, hj]

/-- Several data operations on one open file, first to last. -/
def writes (d : Disk ν) (i : Nat) (ops : List DataOp) : Disk ν :=
  ops.foldl (fun d op => d.write i op) d

@[simp] theorem writes_nil (d : Disk ν) (i : Nat) : d.writes i [] = d := rfl

@[simp] theorem writes_cons (d : Disk ν) (i : Nat) (op : DataOp) (ops : List DataOp) :
    d.writes i (op :: ops) = (d.write i op).writes i ops := rfl

@[simp] theorem node_writes (d : Disk ν) (i : Nat) (ops : List DataOp) (p : List ν) :
    (d.writes i ops).node p = d.node p := by
  induction ops generalizing d with
  | nil => rfl
  | cons op ops ih => rw [writes_cons, ih, node_write]

@[simp] theorem durable_writes (d : Disk ν) (i j : Nat) (ops : List DataOp) :
    (d.writes i ops).durable j = d.durable j := by
  induction ops generalizing d with
  | nil => rfl
  | cons op ops ih => rw [writes_cons, ih, durable_write]

theorem data_writes_self (d : Disk ν) (i : Nat) (ops : List DataOp) :
    (d.writes i ops).data i = applyAll (d.data i) ops := by
  induction ops generalizing d with
  | nil => rfl
  | cons op ops ih =>
      rw [writes_cons, ih, data_write_self]
      rfl

theorem data_writes_of_ne (d : Disk ν) {i j : Nat} (ops : List DataOp) (h : j ≠ i) :
    (d.writes i ops).data j = d.data j := by
  induction ops generalizing d with
  | nil => rfl
  | cons op ops ih => rw [writes_cons, ih, data_write_of_ne d op h]

theorem pending_writes (d : Disk ν) (i j : Nat) (ops : List DataOp) :
    (d.writes i ops).pending j = if j = i then d.pending i ++ ops else d.pending j := by
  induction ops generalizing d with
  | nil =>
      by_cases hj : j = i
      · subst hj
        simp
      · simp [hj]
  | cons op ops ih =>
      rw [writes_cons, ih, pending_write, pending_write]
      by_cases hj : j = i
      · simp [hj]
      · simp [hj]

/-! ## What has been done to an inode -/

/-- Since the disk was `d₀`, these operations have been issued on the inode. -/
structure Since (d₀ d : Disk ν) (i : Nat) (ops : List DataOp) : Prop where
  base : d.base i = d₀.base i
  log : d.log i = d₀.log i ++ ops

theorem Since.refl (d : Disk ν) (i : Nat) : Since d d i [] :=
  ⟨rfl, (List.append_nil _).symm⟩

theorem Since.data {d₀ d : Disk ν} {i : Nat} {ops : List DataOp} (h : Since d₀ d i ops) :
    d.data i = applyAll (d₀.data i) ops := by
  unfold Disk.data
  rw [h.base, h.log, applyAll_append]

/-! ## Disks with the same files -/

/-- A disk that differs from another in directories only: same regular files under the same names,
    same data. -/
structure SameFiles (d d' : Disk ν) : Prop where
  node : ∀ p i, d'.node p = some (.file i) ↔ d.node p = some (.file i)
  nextIno : d'.nextIno = d.nextIno
  base : d'.base = d.base
  log : d'.log = d.log
  synced : d'.synced = d.synced

theorem SameFiles.refl (d : Disk ν) : SameFiles d d :=
  ⟨fun _ _ => Iff.rfl, rfl, rfl, rfl, rfl⟩

theorem SameFiles.trans {d e f : Disk ν} (h : SameFiles d e) (h' : SameFiles e f) :
    SameFiles d f :=
  ⟨fun p i => (h'.node p i).trans (h.node p i), h'.nextIno.trans h.nextIno, h'.base.trans h.base,
    h'.log.trans h.log, h'.synced.trans h.synced⟩

theorem SameFiles.data {d d' : Disk ν} (h : SameFiles d d') (i : Nat) : d'.data i = d.data i := by
  simp only [Disk.data, h.base, h.log]

theorem SameFiles.durable {d d' : Disk ν} (h : SameFiles d d') (i : Nat) :
    d'.durable i = d.durable i := by
  simp only [Disk.durable, h.base, h.log, h.synced]

theorem SameFiles.pending {d d' : Disk ν} (h : SameFiles d d') (i : Nat) :
    d'.pending i = d.pending i := by
  simp only [Disk.pending, h.log, h.synced]

theorem SameFiles.contents {d d' : Disk ν} (h : SameFiles d d') (p : List ν) :
    d'.contents p = d.contents p := by
  unfold Disk.contents
  have hn := h.node p
  cases hp : d.node p with
  | none =>
      rw [hp] at hn
      cases hp' : d'.node p with
      | none => rfl
      | some n =>
          cases n with
          | dir => rfl
          | file i => exact absurd ((hn i).1 hp') (by simp)
  | some n =>
      cases n with
      | file i =>
          rw [(hn i).2 hp]
          simp only [h.data]
      | dir =>
          cases hp' : d'.node p with
          | none => rfl
          | some n =>
              cases n with
              | dir => rfl
              | file i => exact absurd ((hn i).1 hp') (by simp [hp])

/-! ## Directories -/

/-- Every directory stays, and a new one is on the way to `p`. -/
structure DirsTo (p : List ν) (d d' : Disk ν) : Prop where
  stay : ∀ q, d.node q = some .dir → d'.node q = some .dir
  made : ∀ q, d'.node q = some .dir → d.node q = some .dir ∨ q <+: p

theorem DirsTo.of_iff {p : List ν} {d d' : Disk ν}
    (h : ∀ q, d'.node q = some .dir ↔ d.node q = some .dir) : DirsTo p d d' :=
  ⟨fun q => (h q).2, fun q hq => Or.inl ((h q).1 hq)⟩

theorem DirsTo.trans {p : List ν} {d e f : Disk ν} (h : DirsTo p d e) (h' : DirsTo p e f) :
    DirsTo p d f where
  stay q hq := h'.stay q (h.stay q hq)
  made q hq := (h'.made q hq).elim (h.made q) Or.inr

theorem DirsTo.mono {p p' : List ν} {d d' : Disk ν} (h : DirsTo p d d') (hp : p <+: p') :
    DirsTo p' d d' where
  stay := h.stay
  made q hq := (h.made q hq).imp_right fun hpre => hpre.trans hp

/-! ## Names -/

variable [DecidableEq ν]

/-- Bind a path that names nothing yet, or rebind it, to `n`; the caller shows that no inode gets a
    second name. -/
private def rebind (d : Disk ν) (p : List ν) (n : Option Node)
    (hinj : ∀ q i, q ≠ p → d.node q = some (.file i) → n ≠ some (.file i))
    (hlt : ∀ i, n = some (.file i) → i < d.nextIno) : Disk ν :=
  { d with
    node := Function.update d.node p n
    node_inj := by
      intro q r i hq hr
      by_cases hqp : q = p <;> by_cases hrp : r = p
      · rw [hqp, hrp]
      · subst hqp
        rw [Function.update_self] at hq
        rw [Function.update_of_ne hrp] at hr
        exact absurd hq (hinj r i hrp hr)
      · subst hrp
        rw [Function.update_self] at hr
        rw [Function.update_of_ne hqp] at hq
        exact absurd hr (hinj q i hqp hq)
      · rw [Function.update_of_ne hqp] at hq
        rw [Function.update_of_ne hrp] at hr
        exact d.node_inj q r i hq hr
    node_lt := by
      intro q i hq
      by_cases hqp : q = p
      · subst hqp
        rw [Function.update_self] at hq
        exact hlt i hq
      · rw [Function.update_of_ne hqp] at hq
        exact d.node_lt q i hq }

/-- Make a directory at a path that names nothing. -/
def mkdir (d : Disk ν) (p : List ν) : Disk ν :=
  d.rebind p (some .dir) (fun _ _ _ _ => nofun) (fun _ => nofun)

/-- `create_dir_all` below the directory `pre`, which exists: makes the missing components in order
    and stops at one that is a regular file. Returns whether it got through. -/
def mkdirAll (d : Disk ν) (pre : List ν) : List ν → Disk ν × Bool
  | [] => (d, true)
  | x :: xs =>
      match d.node (pre ++ [x]) with
      | some (.file _) => (d, false)
      | some .dir => d.mkdirAll (pre ++ [x]) xs
      | none => (d.mkdir (pre ++ [x])).mkdirAll (pre ++ [x]) xs

/-- A directory that new names can be made in. -/
def isDir (d : Disk ν) (p : List ν) : Bool :=
  p = [] || d.node p = some .dir

/-- An empty regular file at a path, under a fresh inode. -/
def mkfile (d : Disk ν) (p : List ν) : Disk ν :=
  { d with
    node := Function.update d.node p (some (.file d.nextIno))
    nextIno := d.nextIno + 1
    base := Function.update d.base d.nextIno []
    log := Function.update d.log d.nextIno []
    synced := Function.update d.synced d.nextIno 0
    node_inj := by
      intro q r i hq hr
      by_cases hqp : q = p <;> by_cases hrp : r = p
      · rw [hqp, hrp]
      · subst hqp
        rw [Function.update_self] at hq
        rw [Function.update_of_ne hrp] at hr
        have := d.node_lt r i hr
        simp only [Option.some.injEq, Node.file.injEq] at hq
        omega
      · subst hrp
        rw [Function.update_self] at hr
        rw [Function.update_of_ne hqp] at hq
        have := d.node_lt q i hq
        simp only [Option.some.injEq, Node.file.injEq] at hr
        omega
      · rw [Function.update_of_ne hqp] at hq
        rw [Function.update_of_ne hrp] at hr
        exact d.node_inj q r i hq hr
    node_lt := by
      intro q i hq
      by_cases hqp : q = p
      · subst hqp
        rw [Function.update_self, Option.some.injEq, Node.file.injEq] at hq
        omega
      · rw [Function.update_of_ne hqp] at hq
        have := d.node_lt q i hq
        omega
    synced_le := by
      intro j
      by_cases hj : j = d.nextIno
      · subst hj
        simp
      · rw [Function.update_of_ne hj, Function.update_of_ne hj]
        exact d.synced_le j }

/-- `open(O_RDWR | O_CREAT)`: reopen a regular file as it is, or create an empty one. Fails on a
    directory and below a path that is not one. -/
def openRW (d : Disk ν) (p : List ν) : Option (Disk ν × Nat) :=
  match d.node p with
  | some (.file i) => some (d, i)
  | some .dir => none
  | none => if d.isDir p.dropLast then some (d.mkfile p, d.nextIno) else none

/-- `File::create`: as `openRW`, and cut to length zero. -/
def create (d : Disk ν) (p : List ν) : Option (Disk ν × Nat) :=
  (d.openRW p).map fun r => (r.1.write r.2 (.setLen 0), r.2)

/-- Take a name away from a regular file. -/
def unlink (d : Disk ν) (p : List ν) : Disk ν :=
  d.rebind p none (fun _ _ _ _ => nofun) (fun _ => nofun)

/-- `remove_file`: fails on a directory and on a path that names nothing. -/
def remove (d : Disk ν) (p : List ν) : Option (Disk ν) :=
  match d.node p with
  | some (.file _) => some (d.unlink p)
  | _ => none

theorem node_unlink (d : Disk ν) (p q : List ν) :
    (d.unlink p).node q = if q = p then none else d.node q := by
  simp only [unlink, rebind, Function.update_apply]

@[simp] theorem log_unlink (d : Disk ν) (p : List ν) : (d.unlink p).log = d.log := rfl

/-- `rename` of a regular file: the target name is replaced in one step. -/
def rename (d : Disk ν) (src dst : List ν) : Option (Disk ν) :=
  match h : d.node src with
  | some (.file i) =>
      if d.node dst = some .dir then none
      else if src = dst then some d
      else some <| (d.unlink src).rebind dst (some (.file i))
        (by
          intro q j hq hj
          rw [node_unlink] at hj
          split at hj
          · cases hj
          · next hqs =>
              simp only [ne_eq, Option.some.injEq, Node.file.injEq]
              rintro rfl
              exact hqs (d.node_inj q src i hj h))
        (by
          intro j hj
          simp only [Option.some.injEq, Node.file.injEq] at hj
          exact hj ▸ d.node_lt src i h)
  | _ => none

/-- A power loss: each inode keeps what was durable and the pending operations its mask selects;
    every handle is gone with the process. -/
def crash (d : Disk ν) (mask : Nat → Nat → Bool) : Disk ν :=
  { d with
    base := fun i => applyAll (d.durable i) (keepMasked (mask i) (d.pending i))
    log := fun _ => []
    synced := fun _ => 0
    synced_le := fun _ => Nat.le_refl 0 }

/-! ### What the name operations leave alone -/

theorem node_mkdir (d : Disk ν) (p q : List ν) :
    (d.mkdir p).node q = if q = p then some .dir else d.node q := by
  simp only [mkdir, rebind, Function.update_apply]

theorem node_mkfile (d : Disk ν) (p q : List ν) :
    (d.mkfile p).node q = if q = p then some (.file d.nextIno) else d.node q := by
  simp only [mkfile, Function.update_apply]

theorem data_mkfile (d : Disk ν) (p : List ν) (i : Nat) :
    (d.mkfile p).data i = if i = d.nextIno then [] else d.data i := by
  by_cases hi : i = d.nextIno
  · subst hi
    simp [data, mkfile]
  · simp [data, mkfile, hi]

theorem sameFiles_mkdir {d : Disk ν} {p : List ν} (hp : d.node p = none) :
    SameFiles d (d.mkdir p) := by
  refine ⟨fun q i => ?_, rfl, rfl, rfl, rfl⟩
  rw [node_mkdir]
  by_cases hq : q = p
  · subst hq
    rw [if_pos rfl, hp]
    constructor <;> nofun
  · rw [if_neg hq]

/-- `create_dir_all` changes no regular file. -/
theorem sameFiles_mkdirAll (d : Disk ν) (pre xs : List ν) : SameFiles d (d.mkdirAll pre xs).1 := by
  induction xs generalizing d pre with
  | nil => exact SameFiles.refl d
  | cons x xs ih =>
      rw [mkdirAll]
      split
      · exact SameFiles.refl d
      · exact ih d _
      · next hnone => exact (sameFiles_mkdir hnone).trans (ih _ _)

theorem node_of_rename {d d' : Disk ν} {src dst : List ν} (h : d.rename src dst = some d')
    (hne : src ≠ dst) (q : List ν) :
    d'.node q = if q = dst then d.node src else if q = src then none else d.node q := by
  unfold rename at h
  split at h
  · next i hi =>
      split at h
      · cases h
      · rw [Option.some.injEq] at h
        subst h
        simp only [rebind, Function.update_apply, node_unlink, hi]
  · cases h

/-- Renaming a regular file fails only onto a directory. -/
theorem isSome_rename {d : Disk ν} {src dst : List ν} {i : Nat} (h : d.node src = some (.file i))
    (hdst : d.node dst ≠ some .dir) : (d.rename src dst).isSome = true := by
  unfold rename
  split
  · rw [if_neg hdst]
    split <;> rfl
  · next hno => exact absurd h (hno i)

theorem rename_data {d d' : Disk ν} {src dst : List ν} (h : d.rename src dst = some d') :
    d'.nextIno = d.nextIno ∧ d'.base = d.base ∧ d'.log = d.log ∧ d'.synced = d.synced := by
  unfold rename at h
  split at h
  · split at h
    · cases h
    · split at h
      · rw [Option.some.injEq] at h
        exact h ▸ ⟨rfl, rfl, rfl, rfl⟩
      · rw [Option.some.injEq] at h
        exact h ▸ ⟨rfl, rfl, rfl, rfl⟩
  · cases h

theorem remove_eq {d d' : Disk ν} {p : List ν} (h : d.remove p = some d') : d' = d.unlink p := by
  unfold remove at h
  split at h
  · exact (Option.some.inj h).symm
  · cases h

/-- Removing a file, or failing to, leaves no regular file at the path. -/
theorem contents_remove (d : Disk ν) (p : List ν) : ((d.remove p).getD d).contents p = none := by
  unfold remove
  split
  · rw [Option.getD_some, contents, node_unlink, if_pos rfl]
  · next hno =>
      rw [Option.getD_none, contents]
      split
      · next i hi => exact absurd hi (hno i)
      · rfl

/-- The two ways `openRW` succeeds: the file was there, or it is new and empty. -/
theorem openRW_cases {d d' : Disk ν} {p : List ν} {i : Nat} (h : d.openRW p = some (d', i)) :
    (d.node p = some (.file i) ∧ d' = d) ∨
      (d.node p = none ∧ i = d.nextIno ∧ d' = d.mkfile p) := by
  unfold openRW at h
  split at h
  · next j hj =>
      simp only [Option.some.injEq, Prod.mk.injEq] at h
      obtain ⟨rfl, rfl⟩ := h
      exact Or.inl ⟨hj, rfl⟩
  · cases h
  · next hnone =>
      split at h
      · simp only [Option.some.injEq, Prod.mk.injEq] at h
        obtain ⟨rfl, rfl⟩ := h
        exact Or.inr ⟨hnone, rfl, rfl⟩
      · cases h

/-- What `openRW` gives back: the inode the path names afterwards. -/
theorem node_of_openRW {d d' : Disk ν} {p : List ν} {i : Nat} (h : d.openRW p = some (d', i)) :
    d'.node p = some (.file i) := by
  rcases openRW_cases h with ⟨hnode, rfl⟩ | ⟨-, rfl, rfl⟩
  · exact hnode
  · rw [node_mkfile, if_pos rfl]

/-- `openRW` binds no other name. -/
theorem node_of_openRW_of_ne {d d' : Disk ν} {p q : List ν} {i : Nat}
    (h : d.openRW p = some (d', i)) (hq : q ≠ p) : d'.node q = d.node q := by
  rcases openRW_cases h with ⟨-, rfl⟩ | ⟨-, -, rfl⟩
  · rfl
  · rw [node_mkfile, if_neg hq]

/-- `openRW` leaves the inodes in use as they are. -/
theorem openRW_frame {d d' : Disk ν} {p : List ν} {i j : Nat} (h : d.openRW p = some (d', i))
    (hj : j < d.nextIno) :
    d'.base j = d.base j ∧ d'.log j = d.log j ∧ d'.synced j = d.synced j := by
  rcases openRW_cases h with ⟨-, rfl⟩ | ⟨-, -, rfl⟩
  · exact ⟨rfl, rfl, rfl⟩
  · have hne : j ≠ d.nextIno := Nat.ne_of_lt hj
    simp only [mkfile, Function.update_of_ne hne, and_self]

/-- `openRW` changes the data of no file that has a name. -/
theorem data_of_openRW {d d' : Disk ν} {p : List ν} {i j : Nat} (h : d.openRW p = some (d', i))
    (hj : j < d.nextIno) :
    d'.data j = d.data j ∧ d'.durable j = d.durable j ∧ d'.pending j = d.pending j := by
  obtain ⟨hbase, hlog, hsynced⟩ := openRW_frame h hj
  simp only [data, durable, pending, hbase, hlog, hsynced, and_self]

/-- The data behind the handle `openRW` returns is what the path held, nothing where it named
    nothing. -/
theorem data_of_openRW_self {d d' : Disk ν} {p : List ν} {i : Nat}
    (h : d.openRW p = some (d', i)) : d'.data i = (d.contents p).getD [] := by
  rcases openRW_cases h with ⟨hnode, rfl⟩ | ⟨hnone, rfl, rfl⟩
  · rw [contents_of_node hnode, Option.getD_some]
  · rw [data_mkfile, if_pos rfl]
    simp [contents, hnone]

/-- `File::create` is `openRW` and a cut. -/
theorem create_eq {d d' : Disk ν} {p : List ν} {i : Nat} (h : d.create p = some (d', i)) :
    ∃ opened, d.openRW p = some (opened, i) ∧ d' = opened.write i (.setLen 0) := by
  unfold create at h
  rw [Option.map_eq_some_iff] at h
  obtain ⟨⟨opened, j⟩, hopen, heq⟩ := h
  simp only [Prod.mk.injEq] at heq
  obtain ⟨rfl, rfl⟩ := heq
  exact ⟨opened, hopen, rfl⟩

/-- The file behind the handle `File::create` returns is empty. -/
theorem data_of_create {d d' : Disk ν} {p : List ν} {i : Nat} (h : d.create p = some (d', i)) :
    d'.data i = [] := by
  obtain ⟨opened, -, rfl⟩ := create_eq h
  rw [data_write_self, DataOp.apply, ← List.length_eq_zero_iff, length_setLen]

theorem node_of_create {d d' : Disk ν} {p : List ν} {i : Nat} (h : d.create p = some (d', i)) :
    d'.node p = some (.file i) := by
  obtain ⟨opened, hopen, rfl⟩ := create_eq h
  rw [node_write]
  exact node_of_openRW hopen

theorem data_of_rename {d d' : Disk ν} {src dst : List ν} (h : d.rename src dst = some d')
    (i : Nat) : d'.data i = d.data i := by
  obtain ⟨-, hbase, hlog, -⟩ := rename_data h
  simp only [data, hbase, hlog]

/-- The target of a rename has the content of the source. -/
theorem contents_of_rename {d d' : Disk ν} {src dst : List ν} (h : d.rename src dst = some d')
    (hne : src ≠ dst) (q : List ν) :
    d'.contents q
      = if q = dst then d.contents src else if q = src then none else d.contents q := by
  have hnode := node_of_rename h hne q
  have hdata := data_of_rename h
  unfold contents
  by_cases hdst : q = dst
  · rw [if_pos hdst] at hnode ⊢
    simp only [hnode, hdata]
  · rw [if_neg hdst] at hnode ⊢
    by_cases hsrc : q = src
    · rw [if_pos hsrc] at hnode ⊢
      simp only [hnode]
    · rw [if_neg hsrc] at hnode ⊢
      simp only [hnode, hdata]

/-! ### Directories stay -/

theorem dir_openRW {d d' : Disk ν} {p : List ν} {i : Nat} (h : d.openRW p = some (d', i))
    (q : List ν) : d'.node q = some .dir ↔ d.node q = some .dir := by
  rcases openRW_cases h with ⟨-, rfl⟩ | ⟨hnone, -, rfl⟩
  · exact Iff.rfl
  · rw [node_mkfile]
    split
    · next hq => simp [hq, hnone]
    · exact Iff.rfl

theorem dir_create {d d' : Disk ν} {p : List ν} {i : Nat} (h : d.create p = some (d', i))
    (q : List ν) : d'.node q = some .dir ↔ d.node q = some .dir := by
  obtain ⟨opened, hopen, rfl⟩ := create_eq h
  rw [node_write]
  exact dir_openRW hopen q

theorem dir_rename {d d' : Disk ν} {src dst : List ν} (h : d.rename src dst = some d')
    (q : List ν) : d'.node q = some .dir ↔ d.node q = some .dir := by
  unfold rename at h
  split at h
  · next i hi =>
      split at h
      · cases h
      · next hdst =>
          split at h
          · cases h
            exact Iff.rfl
          · cases h
            simp only [rebind, Function.update_apply, node_unlink]
            split
            · next hq => simp [hq, hdst]
            · split
              · next hq => simp [hq, hi]
              · exact Iff.rfl
  · cases h

theorem dir_remove {d d' : Disk ν} {p : List ν} (h : d.remove p = some d') (q : List ν) :
    d'.node q = some .dir ↔ d.node q = some .dir := by
  unfold remove at h
  split at h
  · next i hi =>
      cases h
      rw [node_unlink]
      split
      · next hq => simp [hq, hi]
      · exact Iff.rfl
  · cases h

/-- `create_dir_all` makes directories on the way it goes and takes none away. -/
theorem dirsTo_mkdirAll (d : Disk ν) (pre xs : List ν) :
    DirsTo (pre ++ xs) d (d.mkdirAll pre xs).1 := by
  induction xs generalizing d pre with
  | nil => exact .of_iff fun _ => Iff.rfl
  | cons x xs ih =>
      have hrest : ∀ e : Disk ν, DirsTo (pre ++ x :: xs) e (e.mkdirAll (pre ++ [x]) xs).1 := by
        intro e
        have := ih e (pre ++ [x])
        rwa [List.append_assoc, List.singleton_append] at this
      rw [mkdirAll]
      split
      · exact .of_iff fun _ => Iff.rfl
      · exact hrest d
      · next hnone =>
          refine DirsTo.trans ⟨fun q hq => ?_, fun q hq => ?_⟩ (hrest _)
          · rw [node_mkdir]
            split
            · rfl
            · exact hq
          · rw [node_mkdir] at hq
            split at hq
            · next heq =>
                subst heq
                exact Or.inr ((List.prefix_append_right_inj pre).2 (List.prefix_append [x] xs))
            · exact Or.inl hq

/-- `create` succeeds in a directory, on a name that is no directory. -/
theorem isSome_create {d : Disk ν} {p : List ν} (hdir : d.isDir p.dropLast = true)
    (hfile : d.node p ≠ some .dir) : (d.create p).isSome = true := by
  rw [create, Option.isSome_map, openRW]
  split
  · rfl
  · next hp => exact absurd hp hfile
  · rw [if_pos hdir]
    rfl

end Disk

end Storage
