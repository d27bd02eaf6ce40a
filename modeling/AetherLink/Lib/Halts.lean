import AetherLink.Lib.Run
import Mathlib.Data.List.Perm.Lattice
import Mathlib.Logic.Hydra

set_option autoImplicit false

/-! # Runs that come to an end

A run halts when no infinite sequence of actions of a kind can be taken (`Run.Halts`). It does where
a measure gets smaller with every such action (`Run.halts_of_measure`), and then the actions lead, in
whatever order they are taken, to a state in which none of them is enabled
(`Run.Halts.exists_stuck`). So a system that halts and is stuck only where it is done gets done.

For systems of several parts the measure pairs a number, which what the parts send each other draws
on, with what each part has left to do. A part that takes a step of its own leaves the number and
makes one entry of the list smaller (`Run.lighter_of_set`). -/

namespace Run

variable {σ α : Type} {step : σ → α → Option σ} {P : α → Prop} {s : σ}

/-- `s'` is what an action of the kind makes of `s`. -/
def Next (step : σ → α → Option σ) (P : α → Prop) (s' s : σ) : Prop :=
  ∃ a, P a ∧ step s a = some s'

/-- The actions of the kind cannot go on for ever. -/
def Halts (step : σ → α → Option σ) (P : α → Prop) (s : σ) : Prop :=
  Acc (Next step P) s

/-- No action of the kind is enabled. -/
def Stuck (step : σ → α → Option σ) (P : α → Prop) (s : σ) : Prop :=
  ∀ a, P a → step s a = none

theorem Stuck.not_some {s' : σ} {a : α} (h : Stuck step P s) (ha : P a) : step s a ≠ some s' := by
  rw [h a ha]
  exact nofun

/-- **Halting rule.** Where an invariant holds and every action makes a measure smaller, a run
    halts. -/
theorem halts_of_measure {β : Type} {r : β → β → Prop} (hr : WellFounded r) (measure : σ → β)
    {I : σ → Prop} (hkeep : ∀ s a s', I s → P a → step s a = some s' → I s')
    (hless : ∀ s a s', I s → P a → step s a = some s' → r (measure s') (measure s)) (hI : I s) :
    Halts step P s := by
  induction hm : measure s using hr.induction generalizing s with
  | _ m ih =>
      refine Acc.intro s fun s' hnext => ?_
      obtain ⟨a, ha, hstep⟩ := hnext
      exact ih _ (hm ▸ hless s a s' hI ha hstep) (hkeep s a s' hI ha hstep) rfl

/-- A run that halts is there after one step. -/
theorem Halts.of_next (h : ∀ a s', P a → step s a = some s' → Halts step P s') : Halts step P s :=
  Acc.intro s fun s' ⟨a, ha, hstep⟩ => h a s' ha hstep

/-- There is no infinite run. -/
theorem Halts.not_forever (h : Halts step P s) :
    ¬ ∃ f : Nat → σ, f 0 = s ∧ ∀ n, Next step P (f (n + 1)) (f n) := by
  rintro ⟨f, hzero, hnext⟩
  induction h generalizing f with
  | intro s _ ih =>
      subst hzero
      exact ih _ (hnext 0) (fun n => f (n + 1)) rfl fun n => hnext (n + 1)

/-- **A run that halts gets stuck**: its actions lead to where none is enabled. -/
theorem Halts.exists_stuck (h : Halts step P s) :
    ∃ as s', (∀ a ∈ as, P a) ∧ runs step s as = some s' ∧ Stuck step P s' := by
  induction h with
  | intro s _ ih =>
      by_cases hstuck : Stuck step P s
      · exact ⟨[], s, fun a ha => absurd ha List.not_mem_nil, rfl, hstuck⟩
      · simp only [Stuck, not_forall] at hstuck
        obtain ⟨a, ha, hne⟩ := hstuck
        obtain ⟨m, hm⟩ := Option.ne_none_iff_exists'.1 hne
        obtain ⟨as, s', has, hrun, hend⟩ := ih m ⟨a, ha, hm⟩
        refine ⟨a :: as, s', fun b hb => ?_, ?_, hend⟩
        · rcases List.mem_cons.1 hb with rfl | hb
          · exact ha
          · exact has b hb
        · rw [runs_cons, hm, Option.bind_some, hrun]

/-! ## A number and a list of parts -/

section Parts

variable {β : Type} {r : β → β → Prop}

/-- The number is smaller, or it is the same and one of the parts has less to do. -/
def Lighter (r : β → β → Prop) : Nat × Multiset β → Nat × Multiset β → Prop :=
  Prod.Lex (· < ·) (Relation.CutExpand r)

theorem lighter_wellFounded (hr : WellFounded r) : WellFounded (Lighter r) :=
  WellFounded.prod_lex Nat.lt_wfRel.wf hr.cutExpand

theorem lighter_of_lt {n n' : Nat} (h : n' < n) (parts parts' : Multiset β) :
    Lighter r (n', parts') (n, parts) :=
  Prod.Lex.left _ _ h

/-- What more there is to draw on is no matter. -/
theorem Lighter.add_left {n n' : Nat} {parts parts' : Multiset β}
    (h : Lighter r (n', parts') (n, parts)) (k : Nat) :
    Lighter r (k + n', parts') (k + n, parts) := by
  cases h with
  | left _ _ hlt => exact Prod.Lex.left _ _ (Nat.add_lt_add_left hlt k)
  | right _ hparts => exact Prod.Lex.right _ hparts

/-- **One part takes a step of its own.** -/
theorem lighter_of_set {γ : Type} {n n' : Nat} (hn : n' = n) {l : List γ} {i : Nat} {x x' : γ}
    (f : γ → β) (hx : l[i]? = some x) (h : r (f x') (f x)) :
    Lighter r (n', ((l.set i x').map f : List β)) (n, (l.map f : List β)) := by
  subst hn
  obtain ⟨hi, rfl⟩ := List.getElem?_eq_some_iff.1 hx
  refine Prod.Lex.right _ ⟨{f x'}, f l[i], fun y hy => Multiset.mem_singleton.1 hy ▸ h, ?_⟩
  -- both are what is left of the list without its `i`-th entry, and the two entries
  have hset := ((List.set_perm_cons_eraseIdx hi x').map f).trans (List.Perm.of_eq List.map_cons)
  have hall := ((List.getElem_cons_eraseIdx_perm hi).map f).symm.trans
    (List.Perm.of_eq List.map_cons)
  rw [Multiset.coe_eq_coe.2 hset, Multiset.coe_eq_coe.2 hall, ← Multiset.cons_coe,
    ← Multiset.cons_coe, ← Multiset.singleton_add, ← Multiset.singleton_add, add_comm _ {f x'},
    add_assoc, add_comm {f l[i]}]

end Parts

end Run
