import AetherLink.Lib.Disk
import Mathlib.Data.List.Pairwise

set_option autoImplicit false

/-! # Making files below a directory

A file is made by making its missing ancestors and opening it (`Disk.touch`). In a directory that
holds exactly some files made before (`Disk.Laid`), this works for one more exactly if it and the
others are apart: neither is an ancestor of the other. -/

namespace Storage

variable {ν : Type}

/-! ## Ancestors -/

/-- A proper ancestor. -/
def Above (p q : List ν) : Prop :=
  p <+: q ∧ p ≠ q

instance [DecidableEq ν] (p q : List ν) : Decidable (Above p q) :=
  inferInstanceAs (Decidable (_ ∧ _))

/-- Neither path is a proper ancestor of the other. -/
def Apart (p q : List ν) : Prop :=
  ¬ Above p q ∧ ¬ Above q p

theorem Above.irrefl (p : List ν) : ¬ Above p p :=
  fun h => h.2 rfl

theorem Apart.refl (p : List ν) : Apart p p :=
  ⟨Above.irrefl p, Above.irrefl p⟩

instance : Std.Symm (@Apart ν) :=
  ⟨fun _ _ h => ⟨h.2, h.1⟩⟩

/-- The proper ancestors of a path are the prefixes of its parent. -/
theorem above_iff {p q : List ν} (hp : p ≠ []) : Above q p ↔ q <+: p.dropLast := by
  constructor
  · rintro ⟨hpq, hne⟩
    rw [← List.dropLast_append_getLast hp, List.prefix_concat_iff,
      List.dropLast_append_getLast hp] at hpq
    exact hpq.resolve_left hne
  · intro h
    refine ⟨h.trans (List.dropLast_prefix p), ?_⟩
    rintro rfl
    have hle := h.length_le
    rw [List.length_dropLast] at hle
    have := List.length_pos_of_ne_nil hp
    omega

theorem above_append {base p q : List ν} : Above (base ++ p) (base ++ q) ↔ Above p q := by
  unfold Above
  rw [List.prefix_append_right_inj, ne_eq, List.append_cancel_left_eq]

/-- An ancestor of a path below `base` is `base`, above it or below it. -/
theorem Above.cases_append {base p q : List ν} (h : Above q (base ++ p)) :
    q <+: base ∨ ∃ r, r ≠ [] ∧ q = base ++ r ∧ Above r p := by
  rcases List.prefix_or_prefix_of_prefix h.1 (List.prefix_append base p) with hup | ⟨r, rfl⟩
  · exact Or.inl hup
  · by_cases hr : r = []
    · rw [hr, List.append_nil]
      exact Or.inl (List.prefix_refl base)
    · exact Or.inr ⟨r, hr, rfl, above_append.1 h⟩

theorem prefix_above_append {base p q : List ν} (hq : q <+: base) (hp : p ≠ []) :
    Above q (base ++ p) := by
  refine ⟨hq.trans (List.prefix_append base p), ?_⟩
  rintro rfl
  have hle := hq.length_le
  rw [List.length_append] at hle
  have := List.length_pos_of_ne_nil hp
  omega

/-- A list is pairwise apart exactly if no member is above another. -/
theorem pairwise_apart_iff (ps : List (List ν)) :
    ps.Pairwise Apart ↔ ∀ p ∈ ps, ∀ q ∈ ps, ¬ Above p q := by
  constructor
  · intro h p hp q hq
    exact (List.Pairwise.forall_of_forall (fun x _ => Apart.refl x) h hp hq).1
  · intro h
    exact List.pairwise_of_forall_mem_list fun p hp q hq => ⟨h p hp q hq, h q hq p hp⟩

namespace Disk

variable {d d' : Disk ν} {pre xs p q : List ν} {i : Nat}

/-! ## What a directory holds -/

/-- `base` is a directory with nothing below it. -/
structure EmptyDirectory (d : Disk ν) (base : List ν) : Prop where
  here : ∀ q, q <+: base → q ≠ [] → d.node q = some .dir
  below : ∀ q, q ≠ [] → d.node (base ++ q) = none

/-- `base` is a directory that holds exactly these files, and their ancestors. -/
structure Laid (base : List ν) (done : List (List ν)) (d : Disk ν) : Prop where
  here : ∀ q, q <+: base → q ≠ [] → d.node q = some .dir
  file_iff : ∀ q, q ≠ [] → ((∃ i, d.node (base ++ q) = some (.file i)) ↔ q ∈ done)
  dir_iff : ∀ q, q ≠ [] → (d.node (base ++ q) = some .dir ↔ ∃ p ∈ done, Above q p)

theorem EmptyDirectory.laid {base : List ν} (h : EmptyDirectory d base) : Laid base [] d where
  here := h.here
  file_iff := fun q hq => by simp [h.below q hq]
  dir_iff := fun q hq => by simp [h.below q hq]

theorem Laid.congr {base : List ν} {done : List (List ν)} (h : Laid base done d)
    (hnode : ∀ q, d'.node q = d.node q) : Laid base done d' where
  here := fun q hq hne => by rw [hnode, h.here q hq hne]
  file_iff := fun q hq => by rw [hnode, h.file_iff q hq]
  dir_iff := fun q hq => by rw [hnode, h.dir_iff q hq]

variable [DecidableEq ν]

/-! ## Making directories -/

/-- `create_dir_all` gets through exactly if no regular file is in the way. -/
theorem mkdirAll_ok_iff (d : Disk ν) (pre xs : List ν) :
    (d.mkdirAll pre xs).2 = true ↔
      ∀ ys, ys <+: xs → ys ≠ [] → ∀ i, d.node (pre ++ ys) ≠ some (.file i) := by
  induction xs generalizing d pre with
  | nil =>
      refine iff_of_true rfl fun ys hys hne => ?_
      exact absurd (List.prefix_nil.1 hys) hne
  | cons x xs ih =>
      -- past the first component, the prefixes are those of the rest
      have hstep : ∀ e : Disk ν, (∀ i, d.node (pre ++ [x]) ≠ some (.file i)) →
          (∀ q, q ≠ pre ++ [x] → e.node q = d.node q) →
          (∀ i, e.node (pre ++ [x]) ≠ some (.file i)) →
          ((e.mkdirAll (pre ++ [x]) xs).2 = true ↔
            ∀ ys, ys <+: x :: xs → ys ≠ [] → ∀ i, d.node (pre ++ ys) ≠ some (.file i)) := by
        intro e hdx he hex
        rw [ih]
        constructor
        · intro h ys hys hne i
          obtain ⟨zs, rfl, hzs⟩ := (List.prefix_cons_iff.1 hys).resolve_left hne
          by_cases hz : zs = []
          · rw [hz]
            exact hdx i
          · have hfile := h zs hzs hz i
            rw [List.append_assoc, he _ (by simpa using hz)] at hfile
            exact hfile
        · intro h zs hzs hz i
          rw [List.append_assoc, he _ (by simpa using hz)]
          exact h (x :: zs) (List.prefix_cons_iff.2 (Or.inr ⟨zs, rfl, hzs⟩)) (by simp) i
      rw [mkdirAll]
      split
      · next i hi =>
          refine iff_of_false (by simp) fun h => ?_
          exact h [x] ⟨xs, rfl⟩ (by simp) i hi
      · next hdir => exact hstep d (by simp [hdir]) (fun q _ => rfl) (by simp [hdir])
      · next hnone =>
          refine hstep _ (by simp [hnone]) (fun q hq => ?_) ?_
          · rw [node_mkdir, if_neg hq]
          · simp [node_mkdir]

/-- `create_dir_all` binds only what it goes through. -/
theorem node_mkdirAll_of_ne (d : Disk ν) (pre xs : List ν)
    (hq : ∀ ys, ys <+: xs → ys ≠ [] → q ≠ pre ++ ys) :
    (d.mkdirAll pre xs).1.node q = d.node q := by
  induction xs generalizing d pre with
  | nil => rfl
  | cons x xs ih =>
      have hrest : ∀ ys, ys <+: xs → ys ≠ [] → q ≠ pre ++ [x] ++ ys := by
        intro ys hys hne
        rw [List.append_assoc]
        exact hq (x :: ys) (List.prefix_cons_iff.2 (Or.inr ⟨ys, rfl, hys⟩)) (by simp)
      rw [mkdirAll]
      split
      · rfl
      · exact ih d _ hrest
      · rw [ih _ _ hrest, node_mkdir, if_neg (hq [x] ⟨xs, rfl⟩ (by simp))]

/-- The directories `create_dir_all` leaves behind. -/
theorem node_mkdirAll (h : (d.mkdirAll pre xs).2 = true) {ys : List ν} (hys : ys <+: xs)
    (hne : ys ≠ []) : (d.mkdirAll pre xs).1.node (pre ++ ys) = some .dir := by
  induction xs generalizing d pre ys with
  | nil => exact absurd (List.prefix_nil.1 hys) hne
  | cons x xs ih =>
      obtain ⟨zs, rfl, hzs⟩ := (List.prefix_cons_iff.1 hys).resolve_left hne
      have hstep : ∀ e : Disk ν, (e.mkdirAll (pre ++ [x]) xs).2 = true →
          e.node (pre ++ [x]) = some .dir →
          (e.mkdirAll (pre ++ [x]) xs).1.node (pre ++ x :: zs) = some .dir := by
        intro e hok hdir
        by_cases hz : zs = []
        · rw [hz, node_mkdirAll_of_ne e _ xs fun ys _ hys => by simpa using hys]
          exact hdir
        · have hbelow := ih hok hzs hz
          rwa [List.append_assoc] at hbelow
      rw [mkdirAll] at h ⊢
      split at h
      · cases h
      · next hdir => exact hstep d h hdir
      · next hnone => exact hstep _ h (by rw [node_mkdir, if_pos rfl])

/-! ## Making a file -/

/-- Make the missing ancestors of a path and open the file. -/
def touch (d : Disk ν) (p : List ν) : Option (Disk ν × Nat) :=
  if (d.mkdirAll [] p.dropLast).2 then (d.mkdirAll [] p.dropLast).1.openRW p else none

/-- What is made: the file, and its ancestors. -/
structure Touched (d d' : Disk ν) (p : List ν) (i : Nat) : Prop where
  file : d'.node p = some (.file i)
  above : ∀ q, Above q p → q ≠ [] → d'.node q = some .dir
  other : ∀ q, q ≠ p → ¬ (Above q p ∧ q ≠ []) → d'.node q = d.node q

/-- **When a file can be made**: no ancestor is a regular file, and the path is no directory. -/
theorem isSome_touch_iff (d : Disk ν) (hp : p ≠ []) :
    (d.touch p).isSome = true ↔
      (∀ q, Above q p → q ≠ [] → ∀ i, d.node q ≠ some (.file i)) ∧ d.node p ≠ some .dir := by
  have hok := mkdirAll_ok_iff d [] p.dropLast
  have hself : (d.mkdirAll [] p.dropLast).1.node p = d.node p := by
    refine node_mkdirAll_of_ne d [] _ fun ys hys _ heq => ?_
    rw [List.nil_append] at heq
    exact Above.irrefl p ((above_iff hp).2 (heq ▸ hys))
  simp only [List.nil_append] at hok
  unfold touch
  split
  · next hmade =>
      have habove : ∀ q, Above q p → q ≠ [] → ∀ i, d.node q ≠ some (.file i) :=
        fun q hq hne => hok.1 hmade q ((above_iff hp).1 hq) hne
      rw [and_iff_right habove, openRW, hself]
      split
      · next hfile => simp [hfile]
      · next hdir => simp [hdir]
      · next hnone =>
          have hparent : (d.mkdirAll [] p.dropLast).1.isDir p.dropLast = true := by
            by_cases htop : p.dropLast = []
            · simp [isDir, htop]
            · have hdir := node_mkdirAll hmade (List.prefix_refl _) htop
              rw [List.nil_append] at hdir
              simp [isDir, hdir]
          rw [if_pos hparent]
          simp [hnone]
  · next hmade =>
      refine iff_of_false (by simp) fun h => hmade (hok.2 fun q hq hne => ?_)
      exact h.1 q ((above_iff hp).2 hq) hne

theorem touched (hp : p ≠ []) (h : d.touch p = some (d', i)) : Touched d d' p i := by
  unfold touch at h
  split at h
  · next hmade =>
      have hself := node_of_openRW h
      refine ⟨hself, fun q hq hne => ?_, fun q hqp hq => ?_⟩
      · have hdir := node_mkdirAll hmade ((above_iff hp).1 hq) hne
        rw [List.nil_append] at hdir
        rw [node_of_openRW_of_ne h hq.2, hdir]
      · rw [node_of_openRW_of_ne h hqp]
        refine node_mkdirAll_of_ne d [] _ fun ys hys hne heq => ?_
        rw [List.nil_append] at heq
        subst heq
        exact hq ⟨(above_iff hp).2 hys, hne⟩
  · cases h

/-! ## Filling it -/

namespace Laid

variable {base : List ν} {done : List (List ν)}

/-- **One more file can be made** exactly if it is apart from those that are there. -/
theorem isSome_touch_iff (h : Laid base done d) (hp : p ≠ []) (hdone : [] ∉ done) :
    (d.touch (base ++ p)).isSome = true ↔ ∀ q ∈ done, Apart q p := by
  have hne : base ++ p ≠ [] := by simp [hp]
  rw [Disk.isSome_touch_iff d hne, ne_eq, h.dir_iff p hp]
  constructor
  · rintro ⟨hfiles, hdir⟩ q hq
    have hq0 : q ≠ [] := fun hnil => hdone (hnil ▸ hq)
    refine ⟨fun habove => ?_, fun habove => hdir ⟨q, hq, habove⟩⟩
    obtain ⟨i, hi⟩ := (h.file_iff q hq0).2 hq
    exact hfiles _ (above_append.2 habove) (by simp [hq0]) i hi
  · intro hapart
    refine ⟨fun q hq hq0 i hi => ?_, fun ⟨q, hq, habove⟩ => (hapart q hq).2 habove⟩
    rcases hq.cases_append with hup | ⟨r, hr, rfl, habove⟩
    · rw [h.here q hup hq0] at hi
      cases hi
    · exact (hapart r ((h.file_iff r hr).1 ⟨i, hi⟩)).1 habove

/-- Making it keeps the directory laid out. -/
theorem touch (h : Laid base done d) (hp : p ≠ []) (hapart : ∀ q ∈ done, Apart q p)
    (htouch : d.touch (base ++ p) = some (d', i)) : Laid base (p :: done) d' := by
  have hmade := touched (by simp [hp]) htouch
  have hother : ∀ q, q ≠ [] → q ≠ p → ¬ Above q p → d'.node (base ++ q) = d.node (base ++ q) := by
    intro q hq hqp hnot
    refine hmade.other _ (by simpa using hqp) ?_
    rintro ⟨habove, -⟩
    exact hnot (above_append.1 habove)
  have hparent : ∀ q, q ≠ [] → Above q p → d'.node (base ++ q) = some .dir :=
    fun q hq habove => hmade.above _ (above_append.2 habove) (by simp [hq])
  refine ⟨fun q hq hne => hmade.above q (prefix_above_append hq hp) hne, fun q hq => ?_,
    fun q hq => ?_⟩
  · by_cases hqp : q = p
    · subst hqp
      exact iff_of_true ⟨i, hmade.file⟩ List.mem_cons_self
    · rw [List.mem_cons, or_iff_right hqp]
      by_cases habove : Above q p
      · rw [hparent q hq habove]
        exact iff_of_false (by simp) fun hmem => (hapart q hmem).1 habove
      · rw [hother q hq hqp habove, h.file_iff q hq]
  · simp only [List.exists_mem_cons_iff]
    by_cases hqp : q = p
    · subst hqp
      rw [hmade.file]
      refine iff_of_false (by simp) ?_
      rintro (habove | ⟨r, hr, habove⟩)
      · exact Above.irrefl q habove
      · exact (hapart r hr).2 habove
    · by_cases habove : Above q p
      · exact iff_of_true (hparent q hq habove) (Or.inl habove)
      · rw [hother q hq hqp habove, h.dir_iff q hq, or_iff_right habove]

end Laid

end Disk

end Storage
