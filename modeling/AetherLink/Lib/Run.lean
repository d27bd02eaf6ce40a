import Mathlib.Data.List.Basic

set_option autoImplicit false

/-! # Runs of a labelled step function

A system is given by `step : σ → α → Option σ`: in state `s` the action `a` is either not enabled
(`none`) or leads to one next state. All nondeterminism (which worker moves, what the network
delivers, whether a call fails) is in the choice of the action, so a run is a list of actions and a
concrete run can be evaluated.

The induction over a run is done once here: an invariant kept by every step (`Run.invariant`), an
invariant kept by the steps that meet a side condition (`Run.invariant_of`), and a side condition
that follows from an invariant (`Run.Meets.of_invariant`). -/

namespace Run

variable {σ α : Type} {step : σ → α → Option σ}

/-- The state after taking the actions in order, if each is enabled in its turn. -/
def runs (step : σ → α → Option σ) (s : σ) (as : List α) : Option σ :=
  as.foldlM step s

@[simp] theorem runs_nil (s : σ) : runs step s [] = some s := rfl

@[simp] theorem runs_cons (s : σ) (a : α) (as : List α) :
    runs step s (a :: as) = (step s a).bind fun s' => runs step s' as := rfl

theorem runs_append (s : σ) (as bs : List α) :
    runs step s (as ++ bs) = (runs step s as).bind fun s' => runs step s' bs := by
  simp [runs, List.foldlM_append]

/-- A run of a nonempty list starts with an enabled action. -/
theorem runs_cons_some {s s' : σ} {a : α} {as : List α} (h : runs step s (a :: as) = some s') :
    ∃ m, step s a = some m ∧ runs step m as = some s' := by
  rw [runs_cons, Option.bind_eq_some_iff] at h
  exact h

/-- A run goes on with any enabled action. -/
theorem runs_snoc {s m s' : σ} {as : List α} {a : α} (h : runs step s as = some m)
    (ha : step m a = some s') : runs step s (as ++ [a]) = some s' := by
  rw [runs_append, h, Option.bind_some, runs_cons, ha]
  rfl

/-- A run of a system is one of any system that takes its steps. -/
theorem runs_mono {step' : σ → α → Option σ}
    (hstep : ∀ s a s', step s a = some s' → step' s a = some s') {s s' : σ} {as : List α}
    (h : runs step s as = some s') : runs step' s as = some s' := by
  induction as generalizing s with
  | nil => exact h
  | cons a as ih =>
      obtain ⟨m, hm, hrest⟩ := runs_cons_some h
      rw [runs_cons, hstep s a m hm, Option.bind_some, ih hrest]

/-- What holds at the end and not at the start begins to hold in some step. -/
theorem exists_turn {P : σ → Prop} {s s' : σ} {as : List α} (h : runs step s as = some s')
    (hstart : ¬ P s) (hend : P s') :
    ∃ pre a post m m', as = pre ++ a :: post ∧ runs step s pre = some m ∧ step m a = some m' ∧
      ¬ P m ∧ P m' := by
  induction as generalizing s with
  | nil =>
      rw [runs_nil, Option.some.injEq] at h
      exact absurd (h ▸ hend) hstart
  | cons a as ih =>
      obtain ⟨m, hm, hrest⟩ := runs_cons_some h
      by_cases hP : P m
      · exact ⟨[], a, as, s, m, rfl, rfl, hm, hstart, hP⟩
      · obtain ⟨pre, b, post, u, u', rfl, hpre, hb, hu, hu'⟩ := ih hrest hP
        refine ⟨a :: pre, b, post, u, u', rfl, ?_, hb, hu, hu'⟩
        rw [runs_cons, hm, Option.bind_some, hpre]

/-- Every step of the run meets `C` in the state it is taken in. -/
def Meets (step : σ → α → Option σ) (C : σ → α → Prop) : σ → List α → Prop
  | _, [] => True
  | s, a :: as => C s a ∧ ∀ m, step s a = some m → Meets step C m as

/-- **Conditional run rule.** What every step that meets `C` keeps, every run whose steps all meet
    `C` keeps. -/
theorem invariant_of {I : σ → Prop} {C : σ → α → Prop}
    (hstep : ∀ s a s', I s → C s a → step s a = some s' → I s')
    {s s' : σ} {as : List α} (hI : I s) (hC : Meets step C s as) (h : runs step s as = some s') :
    I s' := by
  induction as generalizing s with
  | nil =>
      rw [runs_nil, Option.some.injEq] at h
      exact h ▸ hI
  | cons a as ih =>
      obtain ⟨m, hm, hrest⟩ := runs_cons_some h
      exact ih (hstep s a m hI hC.1 hm) (hC.2 m hm) hrest

theorem meets_true (s : σ) (as : List α) : Meets step (fun _ _ => True) s as := by
  induction as generalizing s with
  | nil => trivial
  | cons a as ih => exact ⟨trivial, fun m _ => ih m⟩

/-- **Run rule.** What every step keeps, every run keeps. -/
theorem invariant {I : σ → Prop} (hstep : ∀ s a s', I s → step s a = some s' → I s')
    {s s' : σ} {as : List α} (hI : I s) (h : runs step s as = some s') : I s' :=
  invariant_of (C := fun _ _ => True) (fun s a s' hs _ => hstep s a s' hs) hI (meets_true s as) h

theorem Meets.mono {C D : σ → α → Prop} (hCD : ∀ s a, C s a → D s a) {s : σ} {as : List α}
    (h : Meets step C s as) : Meets step D s as := by
  induction as generalizing s with
  | nil => trivial
  | cons a as ih => exact ⟨hCD s a h.1, fun m hm => ih (h.2 m hm)⟩

theorem Meets.and {C D : σ → α → Prop} {s : σ} {as : List α} (hC : Meets step C s as)
    (hD : Meets step D s as) : Meets step (fun s a => C s a ∧ D s a) s as := by
  induction as generalizing s with
  | nil => trivial
  | cons a as ih => exact ⟨⟨hC.1, hD.1⟩, fun m hm => ih (hC.2 m hm) (hD.2 m hm)⟩

theorem Meets.append {C : σ → α → Prop} {s s' : σ} {as bs : List α}
    (h : Meets step C s (as ++ bs)) (hrun : runs step s as = some s') :
    Meets step C s as ∧ Meets step C s' bs := by
  induction as generalizing s with
  | nil =>
      rw [runs_nil, Option.some.injEq] at hrun
      exact ⟨trivial, hrun ▸ h⟩
  | cons a as ih =>
      obtain ⟨m, hm, hrest⟩ := runs_cons_some hrun
      refine ⟨⟨h.1, fun m' hm' => ?_⟩, (ih (h.2 m hm) hrest).2⟩
      obtain rfl := Option.some.inj (hm.symm.trans hm')
      exact (ih (h.2 m hm) hrest).1

/-- Meeting a decidable condition can be decided by taking the steps. -/
instance decidableMeets (C : σ → α → Prop) [∀ s a, Decidable (C s a)] :
    ∀ (s : σ) (as : List α), Decidable (Meets step C s as)
  | _, [] => isTrue trivial
  | s, a :: as =>
      match h : step s a with
      | none => decidable_of_iff (C s a) (by simp [Meets, h])
      | some m =>
          have := decidableMeets C m as
          decidable_of_iff (C s a ∧ Meets step C m as) (by simp [Meets, h])

/-- What an invariant and a condition on the actions give together, every run of such actions meets
    throughout. -/
theorem Meets.of_invariant_of {I : σ → Prop} {P : α → Prop} {C : σ → α → Prop}
    (hstep : ∀ s a s', I s → P a → step s a = some s' → I s') (hC : ∀ s a, I s → P a → C s a) {s : σ}
    {as : List α} (hI : I s) (hP : ∀ a ∈ as, P a) : Meets step C s as := by
  induction as generalizing s with
  | nil => trivial
  | cons a as ih =>
      have ha := hP a List.mem_cons_self
      exact ⟨hC s a hI ha, fun m hm =>
        ih (hstep s a m hI ha hm) fun b hb => hP b (List.mem_cons_of_mem _ hb)⟩

/-- What every state of an invariant meets, every run from one meets throughout. -/
theorem Meets.of_invariant {I : σ → Prop} {C : σ → α → Prop}
    (hstep : ∀ s a s', I s → step s a = some s' → I s') (hC : ∀ s a, I s → C s a) {s : σ} (hI : I s)
    (as : List α) : Meets step C s as :=
  of_invariant_of (P := fun _ => True) (fun s a s' hs _ => hstep s a s' hs)
      (fun s a hs _ => hC s a hs)
    hI fun _ _ => trivial

/-- What the steps of the run cost together. -/
def total (step : σ → α → Option σ) (cost : σ → α → Nat) : σ → List α → Nat
  | _, [] => 0
  | s, a :: as => cost s a + (step s a).elim 0 fun m => total step cost m as

/-- **Run rule with a budget.** An invariant whose every step pays for itself holds at the end for
    what the whole run has cost. -/
theorem invariant_total {I : Nat → σ → Prop} (cost : σ → α → Nat)
    (hstep : ∀ n s a s', I n s → step s a = some s' → I (n + cost s a) s') {n : Nat} {s s' : σ}
    {as : List α} (hI : I n s) (h : runs step s as = some s') : I (n + total step cost s as) s' := by
  induction as generalizing n s with
  | nil =>
      rw [runs_nil, Option.some.injEq] at h
      exact h ▸ hI
  | cons a as ih =>
      obtain ⟨m, hm, hrest⟩ := runs_cons_some h
      have hrun := ih (hstep n s a m hI hm) hrest
      rw [Nat.add_assoc] at hrun
      rwa [total, hm]

/-- **Run rule with a history.** An invariant of the actions so far and the state, for runs of actions
    that meet a condition. -/
theorem invariant_history {I : List α → σ → Prop} {P : α → Prop}
    (hstep : ∀ past s a s', I past s → P a → step s a = some s' → I (past ++ [a]) s') {s s' : σ}
    {past as : List α} (hI : I past s) (hP : ∀ a ∈ as, P a) (h : runs step s as = some s') :
    I (past ++ as) s' := by
  induction as generalizing past s with
  | nil =>
      rw [runs_nil, Option.some.injEq] at h
      rw [List.append_nil]
      exact h ▸ hI
  | cons a as ih =>
      obtain ⟨m, hm, hrest⟩ := runs_cons_some h
      have hrun := ih (hstep past s a m hI (hP a List.mem_cons_self) hm)
        (fun b hb => hP b (List.mem_cons_of_mem _ hb)) hrest
      rwa [List.append_assoc] at hrun

/-- A ghost state along the run: it follows the steps and has no say in them. -/
def carry {γ : Type} (step : σ → α → Option σ) (next : γ → σ → α → γ) : γ → σ → List α → γ
  | g, _, [] => g
  | g, s, a :: as => (step s a).elim g fun m => carry step next (next g s a) m as

theorem carry_append {γ : Type} (next : γ → σ → α → γ) {g : γ} {s m : σ} {as bs : List α}
    (h : runs step s as = some m) :
    carry step next g s (as ++ bs) = carry step next (carry step next g s as) m bs := by
  induction as generalizing g s with
  | nil =>
      rw [runs_nil, Option.some.injEq] at h
      subst h
      rfl
  | cons a as ih =>
      obtain ⟨u, hu, hrest⟩ := runs_cons_some h
      simp only [List.cons_append, carry, hu, Option.elim_some]
      exact ih hrest

/-- **Run rule with a ghost state.** An invariant of the state and the ghost state, for runs whose steps
    all meet a condition. -/
theorem invariant_carry_of {γ : Type} {I : σ → γ → Prop} {C : σ → α → Prop} (next : γ → σ → α → γ)
    (hstep : ∀ s g a s', I s g → C s a → step s a = some s' → I s' (next g s a)) {s s' : σ} {g : γ}
    {as : List α} (hI : I s g) (hC : Meets step C s as) (h : runs step s as = some s') :
    I s' (carry step next g s as) := by
  induction as generalizing s g with
  | nil =>
      rw [runs_nil, Option.some.injEq] at h
      exact h ▸ hI
  | cons a as ih =>
      obtain ⟨m, hm, hrest⟩ := runs_cons_some h
      simp only [carry, hm, Option.elim_some]
      exact ih (hstep s g a m hI hC.1 hm) (hC.2 m hm) hrest

theorem invariant_carry {γ : Type} {I : σ → γ → Prop} (next : γ → σ → α → γ)
    (hstep : ∀ s g a s', I s g → step s a = some s' → I s' (next g s a)) {s s' : σ} {g : γ}
    {as : List α} (hI : I s g) (h : runs step s as = some s') :
    I s' (carry step next g s as) :=
  invariant_carry_of (C := fun _ _ => True) next (fun s g a s' hs _ => hstep s g a s' hs) hI
    (meets_true s as) h

/-- A condition on the actions alone. -/
theorem Meets.of_forall {P : α → Prop} {s : σ} {as : List α} (h : ∀ a ∈ as, P a) :
    Meets step (fun _ a => P a) s as :=
  of_invariant_of (I := fun _ => True) (fun _ _ _ _ _ _ => trivial) (fun _ _ _ ha => ha) trivial h

end Run
