import Mathlib.Data.List.Basic

set_option autoImplicit false

/-! # Maximal runs

A predicate on the numbers of an interval cuts out maximal runs of numbers that satisfy it. `IsRuns`
says that a list of half-open ranges is these runs, in order: the ranges lie in the interval, between
two of them there is a number that is in neither, and together they are where the predicate holds.

The list is unique (`IsRuns.unique`). A scan that walks the interval upwards builds it from behind:
the rest of the scan has found the runs of what follows, and one more number either precedes them
(`IsRuns.skip`) or closes a run before them (`IsRuns.cons`). -/

namespace Ranges

/-- Some range of the list has `i`. -/
def Has (rs : List (Nat × Nat)) (i : Nat) : Prop :=
  ∃ r ∈ rs, r.1 ≤ i ∧ i < r.2

theorem not_has_nil (i : Nat) : ¬ Has [] i := by
  rintro ⟨r, hr, -⟩
  cases hr

theorem has_cons (r : Nat × Nat) (rs : List (Nat × Nat)) (i : Nat) :
    Has (r :: rs) i ↔ (r.1 ≤ i ∧ i < r.2) ∨ Has rs i := by
  simp [Has]

/-- The ranges are the maximal runs of `p` in `[lo, hi)`. -/
structure IsRuns (p : Nat → Prop) (lo hi : Nat) (rs : List (Nat × Nat)) : Prop where
  within : ∀ r ∈ rs, lo ≤ r.1 ∧ r.1 < r.2 ∧ r.2 ≤ hi
  apart : rs.Pairwise fun r r' => r.2 < r'.1
  has_iff : ∀ i, lo ≤ i → i < hi → (Has rs i ↔ p i)

namespace IsRuns

variable {p : Nat → Prop} {lo hi : Nat} {r r' : Nat × Nat} {rs rs' : List (Nat × Nat)}

/-- A number of a range is one of the interval, and satisfies `p`. -/
theorem of_mem (h : IsRuns p lo hi rs) (hr : r ∈ rs) {i : Nat} (hle : r.1 ≤ i) (hlt : i < r.2) :
    lo ≤ i ∧ i < hi ∧ p i := by
  obtain ⟨hlo, -, hhi⟩ := h.within r hr
  have hin : lo ≤ i ∧ i < hi := by omega
  exact ⟨hin.1, hin.2, (h.has_iff i hin.1 hin.2).1 ⟨r, hr, hle, hlt⟩⟩

/-! ## Building runs -/

/-- Where nothing satisfies `p` there is no run. -/
theorem nil (h : ∀ i, lo ≤ i → i < hi → ¬ p i) : IsRuns p lo hi [] :=
  ⟨fun _ hr => absurd hr List.not_mem_nil, .nil,
    fun i hlo hhi => ⟨fun hhas => absurd hhas (not_has_nil i), fun hp => absurd hp (h i hlo hhi)⟩⟩

/-- A number that does not satisfy `p` may come before. -/
theorem skip (hp : ¬ p lo) (h : IsRuns p (lo + 1) hi rs) : IsRuns p lo hi rs := by
  refine ⟨fun r hr => ?_, h.apart, fun i hlo hhi => ?_⟩
  · have := h.within r hr
    omega
  · by_cases hi' : i = lo
    · subst hi'
      refine iff_of_false ?_ hp
      rintro ⟨r, hr, hle, -⟩
      have := h.within r hr
      omega
    · exact h.has_iff i (by omega) hhi

/-- A run that reaches the end of the interval. -/
theorem last (hlt : lo < hi) (hp : ∀ i, lo ≤ i → i < hi → p i) : IsRuns p lo hi [(lo, hi)] := by
  refine ⟨fun r hr => ?_, List.pairwise_singleton _ _, fun i hlo hhi => ?_⟩
  · rw [List.mem_singleton] at hr
    subst hr
    exact ⟨Nat.le_refl _, hlt, Nat.le_refl _⟩
  · exact iff_of_true ⟨_, List.mem_singleton_self _, hlo, hhi⟩ (hp i hlo hhi)

/-- A run closed by a number that does not satisfy `p`, before the runs of what follows that
    number. -/
theorem cons {e : Nat} (hlt : lo < e) (hend : e < hi) (hp : ∀ i, lo ≤ i → i < e → p i)
    (hnot : ¬ p e) (h : IsRuns p (e + 1) hi rs) : IsRuns p lo hi ((lo, e) :: rs) := by
  refine ⟨fun r hr => ?_, List.pairwise_cons.2 ⟨fun r hr => ?_, h.apart⟩, fun i hlo hhi => ?_⟩
  · rcases List.mem_cons.1 hr with rfl | hr
    · exact ⟨Nat.le_refl _, hlt, Nat.le_of_lt hend⟩
    · have := h.within r hr
      omega
  · have := h.within r hr
    show e < r.1
    omega
  · rw [has_cons]
    by_cases hie : i < e
    · exact iff_of_true (Or.inl ⟨hlo, hie⟩) (hp i hlo hie)
    · have hrest := (h.skip hnot).has_iff i (by omega) hhi
      rw [← hrest]
      exact ⟨fun hhas => hhas.resolve_left fun hin => hie hin.2, Or.inr⟩

/-! ## Uniqueness -/

/-- The ranges after the first are the runs of what follows it. -/
theorem tail (h : IsRuns p lo hi (r :: rs)) : IsRuns p (r.2 + 1) hi rs := by
  obtain ⟨hfirst, hrest⟩ := List.pairwise_cons.1 h.apart
  obtain ⟨hlo, hlt, -⟩ := h.within r List.mem_cons_self
  refine ⟨fun r' hr' => ?_, hrest, fun i hi' hhi => ?_⟩
  · have := hfirst r' hr'
    have := h.within r' (List.mem_cons_of_mem _ hr')
    omega
  · rw [← h.has_iff i (by omega) hhi, has_cons]
    refine ⟨Or.inr, fun hhas => hhas.resolve_left fun hin => ?_⟩
    omega

/-- No range has the number another one ends at. -/
theorem not_has_end (h : IsRuns p lo hi rs) (hr : r ∈ rs) : ¬ Has rs r.2 := by
  induction rs generalizing lo with
  | nil => exact not_has_nil _
  | cons a rs ih =>
      have hne := (h.within r hr).2.1
      rw [has_cons, not_or]
      rcases List.mem_cons.1 hr with rfl | hr
      · refine ⟨by omega, ?_⟩
        rintro ⟨x, hx, hle, -⟩
        have := List.rel_of_pairwise_cons h.apart hx
        omega
      · have := List.rel_of_pairwise_cons h.apart hr
        exact ⟨by omega, ih h.tail hr⟩

/-- No list of runs starts before another one does. -/
theorem start_le (h : IsRuns p lo hi (r :: rs)) (h' : IsRuns p lo hi (r' :: rs')) : r.1 ≤ r'.1 := by
  obtain ⟨hlo, hlt, hhi⟩ := h'.within r' List.mem_cons_self
  have hhas : Has (r :: rs) r'.1 :=
    (h.has_iff r'.1 hlo (by omega)).2 (h'.of_mem List.mem_cons_self (Nat.le_refl _) hlt).2.2
  rcases (has_cons r rs r'.1).1 hhas with hin | ⟨x, hx, hle, -⟩
  · exact hin.1
  · have := List.rel_of_pairwise_cons h.apart hx
    have := h.within r List.mem_cons_self
    omega

/-- Nor does one that starts at the same number end its first run before. -/
theorem end_le (h : IsRuns p lo hi (r :: rs)) (h' : IsRuns p lo hi (r' :: rs'))
    (hstart : r.1 = r'.1) : r.2 ≤ r'.2 := by
  obtain ⟨hlo, hlt, hhi⟩ := h'.within r' List.mem_cons_self
  by_contra hend
  have hmem := h.of_mem (i := r'.2) List.mem_cons_self (by omega) (by omega)
  exact h'.not_has_end List.mem_cons_self ((h'.has_iff r'.2 hmem.1 hmem.2.1).2 hmem.2.2)

/-- **The maximal runs are unique.** -/
theorem unique (h : IsRuns p lo hi rs) (h' : IsRuns p lo hi rs') : rs = rs' := by
  induction rs generalizing lo rs' with
  | nil =>
      cases rs' with
      | nil => rfl
      | cons r' rs' =>
          obtain ⟨-, hlt, -⟩ := h'.within r' List.mem_cons_self
          have hmem := h'.of_mem List.mem_cons_self (Nat.le_refl _) hlt
          exact absurd ((h.has_iff r'.1 hmem.1 hmem.2.1).2 hmem.2.2) (not_has_nil _)
  | cons r rs ih =>
      cases rs' with
      | nil =>
          obtain ⟨-, hlt, -⟩ := h.within r List.mem_cons_self
          have hmem := h.of_mem List.mem_cons_self (Nat.le_refl _) hlt
          exact absurd ((h'.has_iff r.1 hmem.1 hmem.2.1).2 hmem.2.2) (not_has_nil _)
      | cons r' rs' =>
          have hstart : r.1 = r'.1 := Nat.le_antisymm (h.start_le h') (h'.start_le h)
          have hend : r.2 = r'.2 :=
            Nat.le_antisymm (h.end_le h' hstart) (h'.end_le h hstart.symm)
          have htail : IsRuns p (r.2 + 1) hi rs' := hend ▸ h'.tail
          rw [Prod.ext hstart hend, ih h.tail htail]

/-- Ranges that follow each other with a gap are apart, all of them. -/
theorem apart_of_isChain (hne : ∀ r ∈ rs, r.1 < r.2)
    (hchain : rs.IsChain fun r r' => r.2 < r'.1) : rs.Pairwise fun r r' => r.2 < r'.1 := by
  induction rs with
  | nil => exact .nil
  | cons r rs ih =>
      have hrest := ih (fun x hx => hne x (List.mem_cons_of_mem _ hx)) hchain.of_cons
      refine List.pairwise_cons.2 ⟨fun x hx => ?_, hrest⟩
      cases rs with
      | nil => cases hx
      | cons r' rs =>
          obtain ⟨hgap, -⟩ := List.isChain_cons_cons.1 hchain
          rcases List.mem_cons.1 hx with rfl | hx
          · exact hgap
          · have := List.rel_of_pairwise_cons hrest hx
            have := hne r' (List.mem_cons_of_mem _ List.mem_cons_self)
            omega

end IsRuns

end Ranges
