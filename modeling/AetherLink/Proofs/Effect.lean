import AetherLink.Core.Recv.Session

set_option autoImplicit false

/-! # What an effect does to the disk

Two readings of an effect. By inode: the data operations it appends to an inode in use
(`Effect.ops`), from which the data, the durable part and the pending part after it follow. By path:
the names it may rebind (`Effect.recordPaths`); all others stay what they were. -/

namespace AetherLink

open Bytes Storage

namespace Effect

variable {d : FileSystem} {e : Effect} {i : Nat}

/-- The data operations the effect appends to inode `i`. -/
def ops (d : FileSystem) (i : Nat) : Effect → List DataOp
  | .pwrite ino off bs => if ino = i then [.pwrite off bs] else []
  | .createFile path => if d.node path = some (.file i) then [.setLen 0] else []
  | _ => []

/-- The names the effect may bind or remove; only record operations do. -/
def recordPaths : Effect → List FilePath
  | .createFile path => [path]
  | .rename src dst => [src, dst]
  | .unlink path => [path]
  | _ => []

/-- An effect that leaves the disk as it is. -/
def Plain (e : Effect) : Prop :=
  ∀ d, e.onDisk d = d

/-- **The disk by inode.** For an inode in use, an effect appends `ops` to its log and, where it is
    an fsync of that inode, marks the whole log durable. -/
structure OnInode (d d' : FileSystem) (e : Effect) (i : Nat) : Prop where
  base : d'.base i = d.base i
  log : d'.log i = d.log i ++ e.ops d i
  synced : d'.synced i = if e = .fsync i then (d.log i).length else d.synced i

theorem onInode (e : Effect) (hi : i < d.nextIno) : OnInode d (e.onDisk d) e i := by
  cases e with
  | pwrite ino off bs =>
      refine ⟨rfl, ?_, rfl⟩
      simp only [onDisk, ops, Disk.log_write]
      by_cases h : i = ino
      · subst h
        simp
      · have h' : ¬ino = i := fun heq => h heq.symm
        simp [h, h']
  | fsync ino =>
      refine ⟨rfl, by simp [onDisk, ops], ?_⟩
      simp only [onDisk, Disk.sync, Function.update_apply]
      by_cases h : i = ino
      · subst h
        simp
      · have h' : ¬ino = i := fun heq => h heq.symm
        simp [h, h']
  | createFile path =>
      simp only [onDisk]
      cases hc : d.create path with
      | none =>
          refine ⟨rfl, ?_, rfl⟩
          have hne : d.node path ≠ some (.file i) := by
            intro hnode
            simp [Disk.create, Disk.openRW, hnode] at hc
          simp [ops, hne]
      | some r =>
          obtain ⟨d', ino⟩ := r
          obtain ⟨opened, hopen, heq⟩ := Disk.create_eq hc
          obtain ⟨hbase, hlog, hsynced⟩ := Disk.openRW_frame hopen hi
          simp only [Option.map_some, Option.getD_some, heq]
          refine ⟨hbase, ?_, hsynced⟩
          rw [Disk.log_write]
          rcases Disk.openRW_cases hopen with ⟨hnode, rfl⟩ | ⟨hnone, rfl, -⟩
          · by_cases h : i = ino
            · subst h
              simp [ops, hnode]
            · have h' : ¬ino = i := fun heq => h heq.symm
              simp [ops, hnode, h, h']
          · have h : ¬i = d.nextIno := Nat.ne_of_lt hi
            simp [ops, hnone, h, hlog]
  | rename src dst =>
      simp only [onDisk]
      cases hr : d.rename src dst with
      | none => exact ⟨rfl, by simp [ops], rfl⟩
      | some d' =>
          obtain ⟨-, hbase, hlog, hsynced⟩ := Disk.rename_data hr
          refine ⟨?_, ?_, ?_⟩
          · rw [Option.getD_some, hbase]
          · rw [Option.getD_some, hlog]
            simp [ops]
          · rw [Option.getD_some, hsynced]
            simp
  | unlink path =>
      simp only [onDisk]
      cases hr : d.remove path with
      | none => exact ⟨rfl, by simp [ops], rfl⟩
      | some d' =>
          rw [Option.getD_some, Disk.remove_eq hr]
          exact ⟨rfl, by simp [ops], rfl⟩
  | _ => exact ⟨rfl, by simp [ops, onDisk], rfl⟩

namespace OnInode

variable {d' : FileSystem}

theorem data (h : OnInode d d' e i) : d'.data i = applyAll (d.data i) (e.ops d i) := by
  rw [Disk.data, h.base, h.log, applyAll_append]
  rfl

theorem ops_fsync (d : FileSystem) (i j : Nat) : (Effect.fsync i).ops d j = [] := rfl

theorem pending (h : OnInode d d' e i) :
    d'.pending i = if e = .fsync i then [] else d.pending i ++ e.ops d i := by
  unfold Disk.pending
  rw [h.log, h.synced]
  split
  · next hf =>
      subst hf
      rw [ops_fsync, List.append_nil, List.drop_length]
  · exact List.drop_append_of_le_length (d.synced_le i)

theorem durable (h : OnInode d d' e i) :
    d'.durable i = if e = .fsync i then d.data i else d.durable i := by
  unfold Disk.durable
  rw [h.base, h.log, h.synced]
  split
  · next hf =>
      subst hf
      rw [ops_fsync, List.append_nil, List.take_length]
      rfl
  · rw [List.take_append_of_le_length (d.synced_le i)]

theorem since {d₀ : FileSystem} {ops : List DataOp} (h : OnInode d d' e i)
    (hsince : d₀.Since d i ops) : d₀.Since d' i (ops ++ e.ops d i) where
  base := h.base.trans hsince.base
  log := by rw [h.log, hsince.log, List.append_assoc]

/-- An inode the effect appends nothing to keeps its data. -/
theorem data_eq (h : OnInode d d' e i) (hops : e.ops d i = []) : d'.data i = d.data i := by
  rw [h.data, hops, applyAll_nil]

end OnInode

/-- An effect that leaves the disk as it is appends nothing. -/
theorem Plain.ops_eq_nil (h : e.Plain) (hi : i < d.nextIno) : e.ops d i = [] := by
  have hlog := (e.onInode hi).log
  rw [h d] at hlog
  exact List.append_right_eq_self.1 hlog.symm

/-- **The disk by path.** A name the effect is not about keeps naming what it named. -/
theorem node_onDisk {q : FilePath} (hq : q ∉ e.recordPaths) :
    (e.onDisk d).node q = d.node q := by
  cases e with
  | createFile path =>
      have hne : q ≠ path := by simpa [recordPaths] using hq
      simp only [onDisk]
      cases hc : d.create path with
      | none => rfl
      | some r =>
          obtain ⟨opened, hopen, heq⟩ := Disk.create_eq hc
          rw [Option.map_some, Option.getD_some, heq, Disk.node_write,
            Disk.node_of_openRW_of_ne hopen hne]
  | rename src dst =>
      have hne : q ≠ src ∧ q ≠ dst := by simpa [recordPaths] using hq
      simp only [onDisk]
      cases hr : d.rename src dst with
      | none => rfl
      | some d' =>
          rw [Option.getD_some]
          by_cases hsd : src = dst
          · subst hsd
            unfold Disk.rename at hr
            split at hr
            · split at hr
              · cases hr
              · rw [if_pos rfl, Option.some.injEq] at hr
                rw [← hr]
            · cases hr
          · rw [Disk.node_of_rename hr hsd, if_neg hne.2, if_neg hne.1]
  | unlink path =>
      have hne : q ≠ path := by simpa [recordPaths] using hq
      simp only [onDisk]
      cases hr : d.remove path with
      | none => rfl
      | some d' => rw [Option.getD_some, Disk.remove_eq hr, Disk.node_unlink, if_neg hne]
  | _ => rfl

/-- No effect makes a directory or takes one away. -/
theorem dir_onDisk (e : Effect) (d : FileSystem) (q : FilePath) :
    (e.onDisk d).node q = some .dir ↔ d.node q = some .dir := by
  cases e with
  | createFile path =>
      cases h : d.create path with
      | none => simp only [onDisk, h, Option.map_none, Option.getD_none]
      | some x =>
          simp only [onDisk, h, Option.map_some, Option.getD_some]
          exact Disk.dir_create h q
  | rename src dst =>
      cases h : d.rename src dst with
      | none => simp only [onDisk, h, Option.getD_none]
      | some d' =>
          simp only [onDisk, h, Option.getD_some]
          exact Disk.dir_rename h q
  | unlink path =>
      cases h : d.remove path with
      | none => simp only [onDisk, h, Option.getD_none]
      | some d' =>
          simp only [onDisk, h, Option.getD_some]
          exact Disk.dir_remove h q
  | _ => exact Iff.rfl

end Effect

end AetherLink
