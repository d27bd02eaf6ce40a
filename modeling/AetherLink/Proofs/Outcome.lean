import AetherLink.Proofs.Watched

set_option autoImplicit false

/-! # One outcome for each session

The invariants follow from what a step does to the sessions (`Watched.Move`). -/

namespace AetherLink

namespace Watched

/-! ## Sessions that have not been claimed -/

theorem outcomes_snoc {w v : Watched} {σ : Nat} {note : Note} (hlog : v.log = w.log ++ [(σ, note)])
    (s : Nat) : v.outcomes s = w.outcomes s + (if note.terminal then one σ s else 0) := by
  rw [outcomes, outcomes, hlog, List.countP_append, List.countP_singleton, one]
  cases note.terminal with
  | false => simp
  | true => cases hσ : σ == s <;> simp

theorem one_self (s : Nat) : one s s = 1 := by
  rw [one, beq_self_eq_true, Bool.toNat_true]

theorem one_of_ne {σ s : Nat} (h : σ ≠ s) : one σ s = 0 := by
  rw [one, beq_eq_false_iff_ne.2 h, Bool.toNat_false]

/-- The session holds the flag. -/
def Open (w : Watched) (s : Nat) : Prop :=
  w.engine.running = true ∧ s + 1 = w.claimed

/-- Sessions that have not been claimed are unheard of. -/
structure Claimed (w : Watched) : Prop where
  running : w.engine.running = true → 0 < w.claimed
  life : ∀ s, 0 < w.life s → s < w.claimed
  pending : ∀ s, 0 < w.pending s → s < w.claimed
  sources : ∀ s, 0 < w.sources s → s < w.claimed
  cancelled : ∀ s ∈ w.cancelled, s < w.claimed
  log : ∀ x ∈ w.log, x.1 < w.claimed

theorem claimed_init : init.Claimed where
  running := Bool.false_ne_true.elim
  life := fun _ h => absurd h (Nat.lt_irrefl 0)
  pending := fun _ h => absurd h (Nat.lt_irrefl 0)
  sources := fun _ h => absurd h (Nat.lt_irrefl 0)
  cancelled := fun _ h => absurd h List.not_mem_nil
  log := fun _ h => absurd h List.not_mem_nil

theorem one_of_lt {σ s n : Nat} (hσ : σ < n) (hs : n ≤ s) : one σ s = 0 :=
  one_of_ne fun heq => absurd (heq ▸ hσ) (Nat.not_lt.2 hs)

/-- Nothing new is heard of a session that has not been claimed. -/
theorem Claimed.mono {w w' : Watched} (h : w.Claimed) (hle : w.claimed ≤ w'.claimed)
    (hrunning : w'.engine.running = true → 0 < w'.claimed)
    (hlife : ∀ s, w'.claimed ≤ s → w'.life s ≤ w.life s)
    (hpending : ∀ s, w'.claimed ≤ s → w'.pending s ≤ w.pending s)
    (hsources : ∀ s, w'.claimed ≤ s → w'.sources s ≤ w.sources s)
    (hcancelled : ∀ s ∈ w'.cancelled, s ∈ w.cancelled ∨ s < w'.claimed)
    (hlog : ∀ x ∈ w'.log, x ∈ w.log ∨ x.1 < w'.claimed) : w'.Claimed := by
  have hbound : ∀ {f f' : Nat → Nat}, (∀ s, 0 < f s → s < w.claimed) →
      (∀ s, w'.claimed ≤ s → f' s ≤ f s) → ∀ s, 0 < f' s → s < w'.claimed := by
    intro f f' hf hf' s hs
    by_contra hge
    have hge := Nat.not_lt.1 hge
    have hlt := hf s (Nat.lt_of_lt_of_le hs (hf' s hge))
    omega
  refine ⟨hrunning, hbound h.life hlife, hbound h.pending hpending, hbound h.sources hsources,
    fun s hs => ?_, fun x hx => ?_⟩
  · exact (hcancelled s hs).elim (fun hold => Nat.lt_of_lt_of_le (h.cancelled s hold) hle) id
  · exact (hlog x hx).elim (fun hold => Nat.lt_of_lt_of_le (h.log x hold) hle) id

theorem Claimed.step {w w' : Watched} {a : Act} (h : w.Claimed) (hstep : w.step a = some w') :
    w'.Claimed := by
  cases step_move hstep with
  | quiet running claimed cancelled log life pending sources =>
      refine h.mono (Nat.le_of_eq claimed.symm) (fun hr => ?_) (fun s _ => life s)
        (fun s _ => pending s) (fun s _ => sources s) (fun s hs => ?_) (fun x hx => ?_)
      · rw [claimed]
        exact h.running (running hr)
      · exact .inl (cancelled ▸ hs)
      · exact .inl (log ▸ hx)
  | claim running running' claimed cancelled log life pending sources =>
      have hnone : ∀ s, w'.claimed ≤ s → one w.claimed s = 0 := fun s hs =>
        one_of_lt (Nat.lt_succ_self w.claimed) (by omega)
      refine h.mono (by omega) (fun _ => by omega) (fun s hs => ?_) (fun s _ => pending s)
        (fun s hs => ?_) (fun s hs => .inl (cancelled ▸ hs)) (fun x hx => .inl (log ▸ hx))
      · have hlife := life s
        rwa [hnone s hs] at hlife
      · have hsources := sources s
        rwa [hnone s hs] at hsources
  | cancel running running' claimed cancelled log life pending sources =>
      have hpos := h.running running
      have hnone : ∀ s, w'.claimed ≤ s → one (w.claimed - 1) s = 0 := fun s hs =>
        one_of_lt (by omega) (claimed ▸ hs)
      refine h.mono (Nat.le_of_eq claimed.symm) (fun _ => claimed ▸ hpos) (fun s _ => life s)
        (fun s hs => ?_) (fun s hs => ?_) (fun s hs => ?_) (fun x hx => .inl (log ▸ hx))
      · have hpending := pending s
        rwa [hnone s hs] at hpending
      · have hsources := sources s
        rwa [hnone s hs] at hsources
      · rw [cancelled, List.mem_append, List.mem_singleton] at hs
        exact hs.imp_right fun heq => by omega
  | release σ reports running' claimed cancelled log life pending sources =>
      have hσ : σ < w.claimed := by
        have hlife := life σ
        rw [one_self] at hlife
        exact h.life σ (by omega)
      refine h.mono (Nat.le_of_eq claimed.symm) (fun _ => by omega)
        (fun s _ => Nat.le_trans (Nat.le_add_right _ _) (life s)) (fun s hs => ?_)
        (fun s _ => sources s) (fun s hs => .inl (cancelled ▸ hs)) (fun x hx => .inl (log ▸ hx))
      have hpending := pending s
      rwa [one_of_lt hσ (claimed ▸ hs)] at hpending
  | notify σ note notifies running claimed cancelled log source life pending sources =>
      refine h.mono (Nat.le_of_eq claimed.symm) (fun hr => ?_) (fun s _ => life s)
        (fun s _ => Nat.le_trans (Nat.le_add_right _ _) (pending s)) (fun s _ => sources s)
        (fun s hs => .inl (cancelled ▸ hs)) (fun x hx => ?_)
      · rw [claimed]
        exact h.running (running ▸ hr)
      · rw [log, List.mem_append, List.mem_singleton] at hx
        refine hx.imp_right fun heq => ?_
        rw [heq, claimed]
        exact h.sources σ source

/-! ## The end of a session -/

/-- **One outcome for each session**: it lives in one place and ends once, and a `cancel` may end it
    besides, but not once its flag is cleared. -/
structure Accounted (w : Watched) : Prop extends w.Claimed where
  ended : ∀ s ∈ w.cancelled, ¬ w.Open s
  lives : ∀ s, w.life s + w.outcomes s + w.pending s ≤ 1 + (w.cancelled.contains s).toNat
  once : ∀ s, w.outcomes s + w.pending s ≤ 1
  unheard : ∀ s, w.Open s → w.outcomes s + w.pending s = 0

theorem accounted_init : init.Accounted where
  toClaimed := claimed_init
  ended := fun _ h => absurd h List.not_mem_nil
  lives := fun _ => Nat.zero_le _
  once := fun _ => Nat.zero_le _
  unheard := fun _ _ => rfl

theorem Accounted.step {w w' : Watched} {a : Act} (h : w.Accounted)
    (hreports : w.reportsCancelled a = false) (hstep : w.step a = some w') : w'.Accounted := by
  have hclaimed := h.toClaimed.step hstep
  cases step_move hstep with
  | quiet running claimed cancelled log life pending sources =>
      have hopen : ∀ s, w'.Open s → w.Open s := fun s hs => ⟨running hs.1, claimed ▸ hs.2⟩
      have houtcomes : ∀ s, w'.outcomes s = w.outcomes s := fun s => by rw [outcomes, log]; rfl
      refine ⟨hclaimed, fun s hs hs' => ?_, fun s => ?_, fun s => ?_, fun s hs => ?_⟩
      · exact h.ended s (cancelled ▸ hs) (hopen s hs')
      · have hlives := h.lives s
        have hlife := life s
        have hpending := pending s
        rw [houtcomes, cancelled]
        omega
      · have honce := h.once s
        have hpending := pending s
        rw [houtcomes]
        omega
      · have hunheard := h.unheard s (hopen s hs)
        have hpending := pending s
        rw [houtcomes]
        omega
  | claim running running' claimed cancelled log life pending sources =>
      have houtcomes : ∀ s, w'.outcomes s = w.outcomes s := fun s => by rw [outcomes, log]; rfl
      -- nothing has been heard of the session just claimed
      have hnew : w.life w.claimed = 0 ∧ w.outcomes w.claimed + w.pending w.claimed = 0 := by
        have hlife := mt (h.life w.claimed) (Nat.lt_irrefl _)
        have hpending := mt (h.pending w.claimed) (Nat.lt_irrefl _)
        have houtcome : w.outcomes w.claimed = 0 := by
          refine List.countP_eq_zero.2 fun x hx => ?_
          have hlt := h.log x hx
          simp [beq_eq_false_iff_ne.2 (Nat.ne_of_lt hlt)]
        omega
      have hopen : ∀ s, w'.Open s → s = w.claimed := fun s hs => by have := hs.2; omega
      refine ⟨hclaimed, fun s hs hs' => ?_, fun s => ?_, fun s => ?_, fun s hs => ?_⟩
      · have hlt := h.cancelled s (cancelled ▸ hs)
        rw [hopen s hs'] at hlt
        exact Nat.lt_irrefl _ hlt
      · have hlives := h.lives s
        have hlife := life s
        have hpending := pending s
        rw [houtcomes, cancelled]
        by_cases hs : w.claimed = s
        · subst hs
          rw [one_self] at hlife
          omega
        · rw [one_of_ne hs] at hlife
          omega
      · have honce := h.once s
        have hpending := pending s
        rw [houtcomes]
        omega
      · have hpending := pending s
        rw [houtcomes]
        rw [hopen s hs] at hpending ⊢
        omega
  | cancel running running' claimed cancelled log life pending sources =>
      have houtcomes : ∀ s, w'.outcomes s = w.outcomes s := fun s => by rw [outcomes, log]; rfl
      have hclosed : ∀ s, ¬ w'.Open s := fun s hs => by rw [Open, running'] at hs; cases hs.1
      have hpos := h.running running
      -- the session that holds the flag is ended
      have hopen : w.Open (w.claimed - 1) := ⟨running, by omega⟩
      have hunheard := h.unheard _ hopen
      have hfresh : w.cancelled.contains (w.claimed - 1) = false := by
        rw [Bool.eq_false_iff, ne_eq, List.contains_iff_mem]
        exact fun hmem => h.ended _ hmem hopen
      refine ⟨hclaimed, fun s _ => hclosed s, fun s => ?_, fun s => ?_,
          fun s hs => absurd hs (hclosed s)⟩
      · have hlives := h.lives s
        have hlife := life s
        have hpending := pending s
        rw [houtcomes, cancelled, List.contains_append]
        by_cases hs : w.claimed - 1 = s
        · subst hs
          rw [hfresh] at hlives
          rw [one_self] at hpending
          simp only [Bool.toNat_false] at hlives
          simp only [List.contains_cons, beq_self_eq_true, Bool.true_or, Bool.or_true,
            Bool.toNat_true]
          omega
        · rw [one_of_ne hs] at hpending
          have hmore := Bool.toNat_le (w.cancelled.contains s)
          have hsame : ([w.claimed - 1].contains s) = false := by
            simp [Ne.symm hs]
          rw [hsame, Bool.or_false]
          omega
      · have honce := h.once s
        have hpending := pending s
        rw [houtcomes]
        by_cases hs : w.claimed - 1 = s
        · subst hs
          rw [one_self] at hpending
          omega
        · rw [one_of_ne hs] at hpending
          omega
  | release σ reports running' claimed cancelled log life pending sources =>
      have houtcomes : ∀ s, w'.outcomes s = w.outcomes s := fun s => by rw [outcomes, log]; rfl
      have hclosed : ∀ s, ¬ w'.Open s := fun s hs => by rw [Open, running'] at hs; cases hs.1
      have hfresh : w.cancelled.contains σ = false := reports.symm.trans hreports
      refine ⟨hclaimed, fun s _ => hclosed s, fun s => ?_, fun s => ?_,
          fun s hs => absurd hs (hclosed s)⟩
      · have hlives := h.lives s
        have hlife := life s
        have hpending := pending s
        rw [houtcomes, cancelled]
        omega
      · have honce := h.once s
        have hlives := h.lives s
        have hlife := life s
        have hpending := pending s
        rw [houtcomes]
        by_cases hs : σ = s
        · subst hs
          rw [hfresh, Bool.toNat_false] at hlives
          rw [one_self] at hlife hpending
          omega
        · rw [one_of_ne hs] at hpending
          omega
  | notify σ note notifies running claimed cancelled log source life pending sources =>
      have hopen : ∀ s, w'.Open s → w.Open s := fun s hs => ⟨running ▸ hs.1, claimed ▸ hs.2⟩
      -- what was about to be told has been told
      have hsum : ∀ s, w'.outcomes s + w'.pending s ≤ w.outcomes s + w.pending s := fun s => by
        have hpending := pending s
        rw [outcomes_snoc log s]
        omega
      refine ⟨hclaimed, fun s hs hs' => ?_, fun s => ?_, fun s => ?_, fun s hs => ?_⟩
      · exact h.ended s (cancelled ▸ hs) (hopen s hs')
      · have hlives := h.lives s
        have hlife := life s
        have hle := hsum s
        rw [cancelled]
        omega
      · exact Nat.le_trans (hsum s) (h.once s)
      · exact Nat.le_zero.1 (h.unheard s (hopen s hs) ▸ hsum s)

/-! ## The order of the notifications -/

/-- **Notifications come in order**, and a session that a later one has been told of has nothing more
    to say. -/
structure Ordered (w : Watched) : Prop extends w.Claimed where
  inOrder : w.InOrder
  silent : ∀ x ∈ w.log, ∀ s < x.1, w.sources s = 0

theorem ordered_init : init.Ordered where
  toClaimed := claimed_init
  inOrder := .nil
  silent := fun _ h => absurd h List.not_mem_nil

theorem Ordered.step {w w' : Watched} {a : Act} (h : w.Ordered) (hovertakes : w.overtakes a = false)
    (hstep : w.step a = some w') : w'.Ordered := by
  have hclaimed := h.toClaimed.step hstep
  cases step_move hstep with
  | quiet running claimed cancelled log life pending sources =>
      refine ⟨hclaimed, by rw [InOrder, log]; exact h.inOrder, fun x hx s hs => ?_⟩
      exact Nat.le_zero.1 (h.silent x (log ▸ hx) s hs ▸ sources s)
  | claim running running' claimed cancelled log life pending sources =>
      refine ⟨hclaimed, by rw [InOrder, log]; exact h.inOrder, fun x hx s hs => ?_⟩
      have hlt := h.log x (log ▸ hx)
      have hsources := sources s
      rw [one_of_ne (by omega), h.silent x (log ▸ hx) s hs] at hsources
      exact Nat.le_zero.1 hsources
  | cancel running running' claimed cancelled log life pending sources =>
      refine ⟨hclaimed, by rw [InOrder, log]; exact h.inOrder, fun x hx s hs => ?_⟩
      have hlt := h.log x (log ▸ hx)
      have hsources := sources s
      rw [one_of_ne (by omega), h.silent x (log ▸ hx) s hs] at hsources
      exact Nat.le_zero.1 hsources
  | release σ reports running' claimed cancelled log life pending sources =>
      refine ⟨hclaimed, by rw [InOrder, log]; exact h.inOrder, fun x hx s hs => ?_⟩
      exact Nat.le_zero.1 (h.silent x (log ▸ hx) s hs ▸ sources s)
  | notify σ note notifies running claimed cancelled log source life pending sources =>
      have hquiet : ∀ s < σ, w.sources s = 0 := by
        intro s hs
        have hnone : (List.range σ).any (fun s => decide (0 < w.sources s)) = false := by
          simpa [overtakes, notifies] using hovertakes
        have := List.any_eq_false.1 hnone s (List.mem_range.2 hs)
        simpa using this
      -- whoever notifies is a source, so no later session has been heard of
      have hlast : ∀ x ∈ w.log, x.1 ≤ σ := by
        intro x hx
        by_contra hlt
        have hzero := h.silent x hx σ (Nat.not_le.1 hlt)
        omega
      refine ⟨hclaimed, ?_, fun x hx s hs => ?_⟩
      · rw [InOrder, log, List.pairwise_append]
        refine ⟨h.inOrder, List.pairwise_singleton _ _, fun x hx y hy => ?_⟩
        rw [List.mem_singleton] at hy
        rw [hy]
        exact hlast x hx
      · rw [log, List.mem_append, List.mem_singleton] at hx
        refine Nat.le_zero.1 (Nat.le_trans (sources s) (Nat.le_of_eq ?_))
        rcases hx with hold | rfl
        · exact h.silent x hold s hs
        · exact hquiet s hs

end Watched

/-- **One outcome for each session, and nothing of an earlier one after it**, in every run in which no
    transfer reports after a `cancel` has ended its session, and no session's notification is made
    while an earlier session may still notify. -/
theorem one_outcome_in_order {as : List Watched.Act} {w : Watched}
    (hmeets : Run.Meets Watched.step
      (fun w a => w.reportsCancelled a = false ∧ w.overtakes a = false) Watched.init as)
    (h : Watched.init.runs as = some w) : (∀ s, w.outcomes s ≤ 1) ∧ w.InOrder := by
  have hinv : w.Accounted ∧ w.Ordered :=
    Run.invariant_of (I := fun w => w.Accounted ∧ w.Ordered)
        (fun _ _ _ hw hfair hstep => ⟨hw.1.step hfair.1 hstep, hw.2.step hfair.2 hstep⟩)
      ⟨Watched.accounted_init, Watched.ordered_init⟩ hmeets h
  exact ⟨fun s => Nat.le_trans (Nat.le_add_right _ _) (hinv.1.once s), hinv.2.inOrder⟩

/-- Two transfers, one after the other: the first completes, the second is cancelled. -/
def transferTwice : List Engine.Act :=
  completedOnce ++ .enter .startClientReceiving :: List.replicate 6 (.call 1 true) ++
    .enter .cancel :: List.replicate 5 (.call 2 true) ++ [.drop 1]

theorem one_outcome_in_order_transferTwice :
    ∃ w : Watched, ((∀ s, w.outcomes s ≤ 1) ∧ w.InOrder) ∧ w.outcomes 0 = 1 ∧ w.outcomes 1 = 1 := by
  have hany : (Watched.init.runs (transferTwice.map .engine)).any
      (fun w => w.outcomes 0 == 1 && w.outcomes 1 == 1) = true := by decide +kernel
  obtain ⟨w, hw, hboth⟩ := (Option.any_eq_true _ _).1 hany
  simp only [Bool.and_eq_true, beq_iff_eq] at hboth
  exact ⟨w, one_outcome_in_order (by decide +kernel) hw, hboth⟩

/-- The future of a transfer has ended when a `cancel` aborts its task. -/
def cancelledAtTheEnd : List Engine.Act :=
  startedOnce ++ .finish 0 true :: .enter .cancel :: List.replicate 5 (.call 1 true) ++
    [.release 0, .announce 0]

/-- A reporter has cleared the flag when the next transfer starts. -/
def startedAtTheEnd : List Engine.Act :=
  startedOnce ++ [.finish 0 true, .release 0] ++
    .enter .startClientSending :: List.replicate 6 (.call 1 true) ++ [.announce 0]

theorem two_outcomes_or_out_of_order :
    (∃ w, Watched.init.runs (cancelledAtTheEnd.map .engine) = some w ∧ w.outcomes 0 = 2) ∧
      ∃ w, Watched.init.runs (startedAtTheEnd.map .engine) = some w ∧ ¬ w.InOrder := by
  have hfirst : (Watched.init.runs (cancelledAtTheEnd.map .engine)).any
      (fun w => w.outcomes 0 == 2) = true := by
    decide +kernel
  have hsecond : (Watched.init.runs (startedAtTheEnd.map .engine)).any
      (fun w => !decide w.InOrder) = true := by
    decide +kernel
  obtain ⟨w, hw, htwo⟩ := (Option.any_eq_true _ _).1 hfirst
  obtain ⟨v, hv, horder⟩ := (Option.any_eq_true _ _).1 hsecond
  exact ⟨⟨w, hw, beq_iff_eq.1 htwo⟩, v, hv, by simpa using horder⟩

end AetherLink
