import AetherLink.Proofs.Effect

set_option autoImplicit false

/-! # Invariants of a receive session

What every step of a session keeps, whatever the peer sends and however the steps interleave:

* the file states never change except for their bitmap, their byte count and their lock;
* a worker's locals describe a chunk of an accepted file, and what it writes is a payload of that
  chunk (`Worker.Fits`);
* at most one worker is inside the checkpoint lock of a file, and past the join there is none
  (`Session.Locks`).

`Turn` sorts the steps by what they do to the disk and to the checkpoints in progress; the proofs
about the disk go by its seven cases. -/

namespace AetherLink

open Bytes Storage

/-! ## The file states -/

/-- The same files, whose bitmaps and counters may differ. -/
def SameStates (files files' : Files) : Prop :=
  ∀ id s, files.lookup id = some s → ∃ s', files'.lookup id = some s' ∧ s.SameFile s'

theorem SameStates.refl (files : Files) : SameStates files files :=
  fun _ s h => ⟨s, h, FileState.SameFile.refl s⟩

theorem SameStates.trans {f g h : Files} (h₁ : SameStates f g) (h₂ : SameStates g h) :
    SameStates f h := by
  intro id s hs
  obtain ⟨t, ht, hst⟩ := h₁ id s hs
  obtain ⟨u, hu, htu⟩ := h₂ id t ht
  exact ⟨u, hu, hst.trans htu⟩

theorem Env.sameStates_apply (env : Env) (e : Effect) :
    SameStates env.files (env.apply e).files :=
  fun id s h => ⟨e.onFile id s, Env.lookup_apply_of h, e.sameFile_onFile id s⟩

/-- A file state of the later map has its counterpart in the earlier one. -/
theorem SameStates.of_lookup {files files' : Files} (h : SameStates files files')
    {id : UInt64} {s s' : FileState} (hs : files.lookup id = some s)
    (hs' : files'.lookup id = some s') : s.SameFile s' := by
  obtain ⟨t, ht, hst⟩ := h id s hs
  obtain rfl := Option.some.inj (ht.symm.trans hs')
  exact hst

theorem SessionMove.env_cases {p : Params} {s s' : Session} {e : Effect}
    (h : SessionMove p s s' e) : s'.env = s.env.apply e ∨ (s'.env = s.env ∧ e = .quiet) := by
  cases h with
  | worker hw hmove => exact Or.inl rfl
  | main hmove => exact Or.inl rfl
  | _ => exact Or.inr ⟨rfl, rfl⟩

theorem Env.apply_quiet (env : Env) : env.apply .quiet = env := rfl

/-- The shared state after a step is the one before, after the step's effect. -/
theorem SessionMove.env_eq {p : Params} {s s' : Session} {e : Effect} (h : SessionMove p s s' e) :
    s'.env = s.env.apply e := by
  rcases h.env_cases with henv | ⟨henv, rfl⟩
  · exact henv
  · rw [henv, Env.apply_quiet]

/-- A file of the map after a step is the step's effect on a file of the map before it. -/
theorem SessionMove.lookup_back {p : Params} {s s' : Session} {e : Effect}
    (h : SessionMove p s s' e) {id : UInt64} {st' : FileState}
    (hst' : s'.env.files.lookup id = some st') :
    ∃ st, s.env.files.lookup id = some st ∧ st' = e.onFile id st ∧ st.SameFile st' := by
  rw [h.env_eq] at hst'
  exact Env.lookup_apply hst'

theorem SessionMove.sameStates {p : Params} {s s' : Session} {e : Effect}
    (h : SessionMove p s s' e) : SameStates s.env.files s'.env.files := by
  rw [h.env_eq]
  exact Env.sameStates_apply s.env e

/-- The bitmap changes only where the effect sets one of its bits. -/
theorem Effect.bitmap_onFile (e : Effect) (id : UInt64) (s : FileState) :
    (e.onFile id s).bitmap = s.bitmap ∨
      ∃ i b, e = .setBit id i ∧ s.bitmap.set i = .ok b ∧ (e.onFile id s).bitmap = b := by
  cases e with
  | setBit id' i =>
      simp only [onFile]
      by_cases hid : id = id'
      · subst hid
        rw [if_pos rfl]
        cases hset : s.bitmap.set i with
        | error err => exact Or.inl rfl
        | ok b => exact Or.inr ⟨i, b, rfl, hset, rfl⟩
      · rw [if_neg hid]
        exact Or.inl rfl
  | setSince id' v =>
      simp only [onFile]
      split <;> exact Or.inl rfl
  | setLock id' b =>
      simp only [onFile]
      split <;> exact Or.inl rfl
  | _ => exact Or.inl rfl

theorem Effect.bitmap_onFile_of_ne {e : Effect} (id : UInt64) (s : FileState)
    (h : ∀ i, e ≠ .setBit id i) : (e.onFile id s).bitmap = s.bitmap := by
  rcases e.bitmap_onFile id s with heq | ⟨i, b, he, -, -⟩
  · exact heq
  · exact absurd he (h i)

/-- A well-formed bitmap stays one, of the same size. -/
theorem Effect.wf_onFile (e : Effect) (id : UInt64) {s : FileState} (h : s.bitmap.Wf) :
    (e.onFile id s).bitmap.Wf ∧ (e.onFile id s).bitmap.count = s.bitmap.count := by
  rcases e.bitmap_onFile id s with heq | ⟨i, b, -, hset, heq⟩
  · rw [heq]
    exact ⟨h, rfl⟩
  · rw [heq]
    exact ⟨h.set hset, ChunkBitmap.count_of_set hset⟩

/-- The bitmaps are well formed. -/
def Files.Wf (files : Files) : Prop :=
  ∀ id st, files.lookup id = some st → st.bitmap.Wf

theorem Files.Wf.apply {env : Env} (h : env.files.Wf) (e : Effect) : (env.apply e).files.Wf := by
  intro id st hst
  obtain ⟨st₀, hst₀, rfl, -⟩ := Env.lookup_apply hst
  exact (e.wf_onFile id (h id st₀ hst₀)).1

/-- Every bitmap is well formed and has a bit per chunk. -/
def Files.Sized (files : Files) : Prop :=
  ∀ id s, files.lookup id = some s → s.bitmap.Wf ∧ s.bitmap.count = s.layout.count

theorem Files.Sized.onFiles {files : Files} (h : files.Sized) (e : Effect) :
    Files.Sized (e.onFiles files) := by
  intro id s' hs'
  rw [Effect.lookup_onFiles, Option.map_eq_some_iff] at hs'
  obtain ⟨s, hs, rfl⟩ := hs'
  obtain ⟨hwf, hcount⟩ := e.wf_onFile id (h id s hs).1
  rw [(e.sameFile_onFile id s).layout]
  exact ⟨hwf, hcount.trans (h id s hs).2⟩

/-! ## What a worker knows -/

/-- `c` is a chunk of the file. -/
structure Current.Of (c : Current) (s : FileState) : Prop where
  index : c.chunkIndex < s.layout.count
  start_eq : c.start = s.layout.start c.chunkIndex
  len_eq : c.expectedLen = s.layout.len c.chunkIndex

theorem startChunk_ok {s : FileState} {h : FrameHeader} {c : Current}
    (hc : startChunk s h = .ok c) : c.fileId = h.fileId ∧ c.Of s := by
  unfold startChunk at hc
  split at hc
  · cases hc
  · next i hi =>
      split at hc
      · cases hc
      · next start len hr =>
          split at hc
          · cases hc
          · rw [Except.ok.injEq] at hc
            subst hc
            obtain ⟨hlt, heq⟩ := (s.layout.range_ok_iff i _).1 hr
            rw [Prod.mk.injEq] at heq
            exact ⟨rfl, hlt, heq.1, heq.2⟩

/-- What the checks on a data frame's header establish. -/
theorem acceptFrame_ok {files : Files} {current : Option Current} {buf buf' : List UInt8}
    {h : FrameHeader} {c : Current} (hok : acceptFrame files current buf h = .ok (c, buf')) :
    ∃ s, files.lookup h.fileId = some s ∧
      ((current = some c ∧ buf' = buf) ∨
        (current = none ∧ buf' = [] ∧ startChunk s h = .ok c)) ∧
      h.fileId = c.fileId ∧ buf'.length + h.length.toNat ≤ c.expectedLen := by
  unfold acceptFrame at hok
  split at hok
  · cases hok
  · next s hs =>
      simp only at hok
      split at hok
      · cases hok
      · next c1 buf1 hopen =>
          split at hok
          · cases hok
          · next hadm =>
              cases hok
              have hfits : h.fileId = c.fileId ∧ buf'.length + h.length.toNat ≤ c.expectedLen := by
                unfold admitFrame at hadm
                split at hadm
                · cases hadm
                · next hid =>
                    split at hadm
                    · cases hadm
                    · split at hadm
                      · cases hadm
                      · next hlen => exact ⟨not_not.1 hid, Nat.not_lt.1 hlen⟩
              refine ⟨s, hs, ?_, hfits⟩
              cases hcur : current with
              | some c0 =>
                  simp only [hcur, Except.ok.injEq, Prod.mk.injEq] at hopen
                  exact Or.inl ⟨by rw [hopen.1], hopen.2.symm⟩
              | none =>
                  simp only [hcur] at hopen
                  cases hstart : startChunk s h with
                  | error e =>
                      rw [hstart] at hopen
                      cases hopen
                  | ok c0 =>
                      rw [hstart] at hopen
                      cases hopen
                      exact Or.inr ⟨rfl, rfl, rfl⟩

/-- The places where the buffer holds a verified chunk that is not yet marked. -/
def WorkerPc.Verified : WorkerPc → Prop
  | .write _ => True
  | .mark => True
  | _ => False

/-- A worker's locals fit the accepted files. -/
structure Worker.Fits (blake3 : Blake3) (files : Files) (w : Worker) : Prop where
  current : ∀ c, w.current = some c → ∃ s, files.lookup c.fileId = some s ∧ c.Of s
  filling : ∀ n c, w.pc = .payload n → w.current = some c → w.buf.length + n ≤ c.expectedLen
  full : ∀ c, w.pc = .verify → w.current = some c → w.buf.length = c.expectedLen
  payload : w.pc.Verified → ∀ c s, w.current = some c → files.lookup c.fileId = some s →
    IsPayload blake3 s.layout s.chunkHashes c.chunkIndex w.buf

namespace Worker.Fits

variable {blake3 : Blake3} {files files' : Files} {w : Worker}

theorem fresh : Worker.fresh.Fits blake3 files :=
  ⟨nofun, nofun, nofun, fun h => h.elim⟩

/-- Fitting is about what never changes of the file states. -/
theorem mono (h : w.Fits blake3 files) (hsame : SameStates files files') :
    w.Fits blake3 files' := by
  refine ⟨?_, h.filling, h.full, ?_⟩
  · intro c hc
    obtain ⟨s, hs, hof⟩ := h.current c hc
    obtain ⟨s', hs', hst⟩ := hsame _ s hs
    exact ⟨s', hs', by rw [hst.layout]; exact hof.index, by rw [hst.layout]; exact hof.start_eq,
      by rw [hst.layout]; exact hof.len_eq⟩
  · intro hv c s' hc hs'
    obtain ⟨s, hs, -⟩ := h.current c hc
    have hst := hsame.of_lookup hs hs'
    rw [hst.layout, hst.chunkHashes]
    exact h.payload hv c s hc hs

/-- A step that keeps the chunk and the buffer and is not at a place with demands of its own. -/
theorem move_on {w' : Worker} (h : w.Fits blake3 files) (hcur : w'.current = w.current)
    (hpc : (∀ n, w'.pc ≠ .payload n) ∧ w'.pc ≠ .verify ∧ ¬ w'.pc.Verified) :
    w'.Fits blake3 files :=
  ⟨fun c hc => h.current c (hcur ▸ hc), fun n _ hn => absurd hn (hpc.1 n),
    fun _ hv => absurd hv hpc.2.1, fun hv => absurd hv hpc.2.2⟩

theorem stop (h : w.Fits blake3 files) (r : Except Error Unit) : (w.stop r).Fits blake3 files :=
  h.move_on rfl ⟨nofun, nofun, fun hv => hv⟩

theorem finishChunk (w : Worker) : w.finishChunk.Fits blake3 files :=
  ⟨nofun, nofun, nofun, fun h => h.elim⟩

/-- **A worker's step keeps its locals fitting.** -/
theorem step {p : Params} {env : Env} {w' : Worker} {e : Effect} (h : w.Fits p.blake3 env.files)
    (hmove : WorkerMove p env w w' e) : w'.Fits p.blake3 env.files := by
  cases hmove with
  | skips hpc hlen hdec htype =>
      exact ⟨h.current, fun n c hn => absurd (hpc.symm.trans hn) nofun,
        fun c hv => absurd (hpc.symm.trans hv) nofun,
            fun hv => by simp [hpc, WorkerPc.Verified] at hv⟩
  | opens hpc hlen hdec htype hacc =>
      obtain ⟨s, hs, hwhich, hid, hfits⟩ := acceptFrame_ok hacc
      refine ⟨fun c hc => ?_, fun n c hn hc => ?_, nofun, fun hv => hv.elim⟩
      · obtain rfl := Option.some.inj hc
        rcases hwhich with ⟨hcur, -⟩ | ⟨-, -, hstart⟩
        · exact h.current _ hcur
        · obtain ⟨hid', hof⟩ := startChunk_ok hstart
          exact ⟨s, hid'.symm ▸ hs, hof⟩
      · obtain rfl := Option.some.inj hc
        cases hn
        exact hfits
  | closes hpc hshort heof hcur => exact h.stop _
  | fails inbox e hpc hrun => exact h.move_on rfl ⟨nofun, nofun, fun hv => hv⟩
  | @buffers c n hpc hcur hn =>
      refine ⟨h.current, ?_, ?_, ?_⟩
      · intro m c' hm
        split at hm <;> cases hm
      · intro c' hv hc'
        obtain rfl := Option.some.inj (hcur.symm.trans hc')
        by_contra hne
        rw [if_neg hne] at hv
        cases hv
      · intro hv
        simp only at hv
        split at hv <;> exact hv.elim
  | verifies hpc hcur hs hdigest =>
      refine ⟨h.current, nofun, nofun, fun _ c' s' hc' hs' => ?_⟩
      obtain rfl := Option.some.inj (hcur.symm.trans hc')
      obtain rfl := Option.some.inj (hs.symm.trans hs')
      obtain ⟨t, ht, hof⟩ := h.current _ hcur
      obtain rfl := Option.some.inj (hs.symm.trans ht)
      exact ⟨hof.index, (h.full _ hpc hcur).trans hof.len_eq, hdigest⟩
  | writes hpc hcur hs hn hfits =>
      exact ⟨h.current, nofun, nofun,
        fun _ => h.payload (by simp [hpc, WorkerPc.Verified])⟩
  | written hpc =>
      exact ⟨h.current, nofun, nofun,
        fun _ => h.payload (by simp [hpc, WorkerPc.Verified])⟩
  | reports hpc =>
      refine h.move_on rfl ⟨?_, ?_, ?_⟩
      · intro n hn
        simp only at hn
        split at hn <;> cases hn
      · intro hv
        simp only at hv
        split at hv <;> cases hv
      · intro hv
        simp only at hv
        split at hv <;> exact hv
  | notDue hpc hoff => exact finishChunk w
  | notYet hpc hcur hs hlt => exact finishChunk w
  | lockTaken hpc hcur hs htaken => exact finishChunk w
  | releases hpc hcur => exact finishChunk w
  | givesUp hpc hcur => exact h.stop _
  | _ => exact h.move_on rfl ⟨nofun, nofun, fun hv => hv⟩

end Worker.Fits

/-- Every worker of the session fits. -/
def Session.Fits (blake3 : Blake3) (s : Session) : Prop :=
  ∀ w ∈ s.workers, w.Fits blake3 s.env.files

theorem SessionMove.fits {p : Params} {s s' : Session} {e : Effect} (h : SessionMove p s s' e)
    (hf : s.Fits p.blake3) : s'.Fits p.blake3 := by
  have hsame := h.sameStates
  suffices hw : ∀ w ∈ s'.workers, w.Fits p.blake3 s.env.files from
    fun w hmem => (hw w hmem).mono hsame
  cases h with
  | @arrives i w hw hopen inbox closed =>
      intro w' hmem
      rcases List.mem_or_eq_of_mem_set hmem with hmem | rfl
      · exact hf w' hmem
      · have := hf w (List.mem_of_getElem? hw)
        exact ⟨this.current, this.filling, this.full, this.payload⟩
  | worker hw hmove =>
      intro w' hmem
      rcases List.mem_or_eq_of_mem_set hmem with hmem | rfl
      · exact hf w' hmem
      · exact (hf _ (List.mem_of_getElem? hw)).step hmove
  | accepts hmain =>
      intro w' hmem
      rcases List.mem_append.1 hmem with hmem | hmem
      · exact hf w' hmem
      · obtain rfl := List.mem_singleton.1 hmem
        exact Worker.Fits.fresh
  | refuses hmain error => exact hf
  | joins hmain hended horder hnext => exact hf
  | main hmove => exact hf

/-- **What every worker keeps.** A property of workers that an arrival and a worker's own step keep,
    and that a fresh worker has, is kept by every step. -/
theorem SessionMove.forall_workers {p : Params} {s s' : Session} {e : Effect} {P : Worker → Prop}
    (h : SessionMove p s s' e)
    (harrives : ∀ w inbox closed, P w → P { w with inbox := inbox, closed := closed })
    (hstep : ∀ w w' e, WorkerMove p s.env w w' e → P w → P w') (hfresh : P Worker.fresh)
    (hs : ∀ w ∈ s.workers, P w) : ∀ w ∈ s'.workers, P w := by
  cases h with
  | @arrives i w hw hopen inbox closed =>
      intro v hv
      rcases List.mem_or_eq_of_mem_set hv with hold | rfl
      · exact hs v hold
      · exact harrives w _ _ (hs w (List.mem_of_getElem? hw))
  | worker hw hmove =>
      intro v hv
      rcases List.mem_or_eq_of_mem_set hv with hold | rfl
      · exact hs v hold
      · exact hstep _ _ _ hmove (hs _ (List.mem_of_getElem? hw))
  | accepts hmain =>
      intro v hv
      rcases List.mem_append.1 hv with hold | hnew
      · exact hs v hold
      · obtain rfl := List.mem_singleton.1 hnew
        exact hfresh
  | refuses hmain error => exact hs
  | joins hmain hended horder hnext => exact hs
  | main hmove => exact hs

/-! ## The checkpoint lock -/

/-- The places of `run` past the join. -/
def MainPc.Joined : MainPc → Prop
  | .spawning _ => False
  | .joining => False
  | .returned _ => False
  | _ => True

/-- At most one worker is inside the lock of a file, and the lock is then taken; past the join every
    worker has ended. -/
structure Session.Locks (s : Session) : Prop where
  taken : ∀ (i : Nat) w c st, s.workers[i]? = some w → w.pc.Locked → w.current = some c →
    s.env.files.lookup c.fileId = some st → st.checkpointing = true
  unique : ∀ (i j : Nat) w v c d, s.workers[i]? = some w → s.workers[j]? = some v → w.pc.Locked →
    v.pc.Locked → w.current = some c → v.current = some d → c.fileId = d.fileId → i = j
  ended : s.main.Joined → ∀ w ∈ s.workers, ∃ r, w.pc = .ended r

/-- What a step does to the lock a worker is inside of: nothing, or it takes or drops the lock of
    its own file. -/
theorem WorkerMove.locked_cases {p : Params} {env : Env} {w w' : Worker} {e : Effect}
    (h : WorkerMove p env w w' e) :
    (w'.current = w.current ∧ w.pc.Locked ∧ w'.pc.Locked ∧ ∀ id b, e ≠ .setLock id b) ∨
    (¬ w.pc.Locked ∧ ¬ w'.pc.Locked ∧ ∀ id b, e ≠ .setLock id b) ∨
    (∃ c s, w.current = some c ∧ w'.current = some c ∧ ¬ w.pc.Locked ∧ w'.pc.Locked ∧
      env.files.lookup c.fileId = some s ∧ s.checkpointing = false ∧
      e = .setLock c.fileId true) ∨
    (∃ c, w.current = some c ∧ w.pc.Locked ∧ ¬ w'.pc.Locked ∧ e = .setLock c.fileId false) := by
  have hne : ∀ {s : FileState} {pc : CheckpointPc} {next : CheckpointNext} {e : Effect},
      CheckpointMove p.blake3 env.disk s pc next e → ∀ id b, e ≠ .setLock id b := by
    intro s pc next e hm id b
    cases hm <;> nofun
  cases h with
  | skips hpc hlen hdec htype =>
      exact Or.inr (Or.inl ⟨by simp [hpc, WorkerPc.Locked], by simp [hpc, WorkerPc.Locked], by simp⟩)
  | opens hpc hlen hdec htype hacc =>
      exact Or.inr (Or.inl ⟨by simp [hpc, WorkerPc.Locked], fun h => h, by simp⟩)
  | closes hpc hshort heof hcur =>
      exact Or.inr (Or.inl ⟨by simp [hpc, WorkerPc.Locked], fun h => h, by simp⟩)
  | fails inbox e hpc hrun => exact Or.inr (Or.inl ⟨hpc, fun h => h, by simp⟩)
  | buffers hpc hcur hn =>
      refine Or.inr (Or.inl ⟨by simp [hpc, WorkerPc.Locked], fun hl => ?_, by simp⟩)
      simp only at hl
      split at hl <;> exact hl
  | reports hpc =>
      refine Or.inr (Or.inl ⟨by simp [hpc, WorkerPc.Locked], fun hl => ?_, by simp⟩)
      simp only at hl
      split at hl <;> exact hl
  | locks hpc hcur hs hfree =>
      exact Or.inr (Or.inr (Or.inl ⟨_, _, hcur, hcur, by simp [hpc, WorkerPc.Locked], trivial, hs,
        hfree, rfl⟩))
  | resets hpc hcur =>
      exact Or.inl ⟨rfl, by simp [hpc, WorkerPc.Locked], trivial, by simp⟩
  | checkpoints hpc hcur hs hmove =>
      exact Or.inl ⟨rfl, by simp [hpc, WorkerPc.Locked], trivial, hne hmove⟩
  | checkpointed hpc hcur hs hmove =>
      exact Or.inl ⟨rfl, by simp [hpc, WorkerPc.Locked], trivial, hne hmove⟩
  | releases hpc hcur =>
      exact Or.inr (Or.inr (Or.inr ⟨_, hcur, by simp [hpc, WorkerPc.Locked], fun h => h, rfl⟩))
  | givesUp hpc hcur =>
      exact Or.inr (Or.inr (Or.inr ⟨_, hcur, by simp [hpc, WorkerPc.Locked], fun h => h, rfl⟩))
  | _ => exact Or.inr (Or.inl ⟨by simp [*, WorkerPc.Locked], fun h => h, by simp⟩)

/-- Only `setLock` touches a lock. -/
theorem Effect.checkpointing_onFile {e : Effect} (id : UInt64) (s : FileState)
    (h : ∀ id b, e ≠ .setLock id b) : (e.onFile id s).checkpointing = s.checkpointing := by
  cases e with
  | setBit id' index =>
      simp only [onFile]
      split
      · split <;> rfl
      · rfl
  | setSince id' bytes =>
      simp only [onFile]
      split <;> rfl
  | setLock id' b => exact absurd rfl (h id' b)
  | _ => rfl

theorem MainMove.joined {p : Params} {env : Env} {pc pc' : MainPc} {e : Effect}
    (h : MainMove p env pc pc' e) : (pc'.Joined → pc.Joined) ∧ ∀ id b, e ≠ .setLock id b := by
  have hne : ∀ {s : FileState} {pc : CheckpointPc} {next : CheckpointNext} {e : Effect},
      CheckpointMove p.blake3 env.disk s pc next e → ∀ id b, e ≠ .setLock id b := by
    intro s pc next e hm id b
    cases hm <;> nofun
  cases h with
  | spawned => exact ⟨fun h => h.elim, nofun⟩
  | saving error todo hs hmove => exact ⟨fun _ => trivial, hne hmove⟩
  | saved error todo hs hmove => exact ⟨fun _ => trivial, hne hmove⟩
  | shelving hs hmove => exact ⟨fun _ => trivial, hne hmove⟩
  | shelved hs hmove => exact ⟨fun _ => trivial, hne hmove⟩
  | aborts hs he => rcases he with rfl | rfl <;> exact ⟨fun _ => trivial, nofun⟩
  | drops todo hs he => rcases he with rfl | rfl <;> exact ⟨fun _ => trivial, nofun⟩
  | dropsTmp todo hs he => rcases he with rfl | rfl <;> exact ⟨fun _ => trivial, nofun⟩
  | _ => exact ⟨fun _ => trivial, nofun⟩

/-- An element of an updated list is the new one, or was there before. -/
theorem of_getElem?_set {α : Type} {l : List α} {i j : Nat} {a v : α}
    (h : (l.set i a)[j]? = some v) : (i = j ∧ v = a) ∨ (i ≠ j ∧ l[j]? = some v) := by
  rw [List.getElem?_set] at h
  by_cases hij : i = j
  · rw [if_pos hij] at h
    split at h
    · exact Or.inl ⟨hij, (Option.some.inj h).symm⟩
    · cases h
  · rw [if_neg hij] at h
    exact Or.inr ⟨hij, h⟩

theorem Session.Locks.apply {s : Session} {e : Effect} (h : s.Locks)
    (he : ∀ id b, e ≠ .setLock id b) {i : Nat} {w : Worker} {c : Current} {st : FileState}
    (hw : s.workers[i]? = some w) (hl : w.pc.Locked) (hc : w.current = some c)
    (hst : (s.env.apply e).files.lookup c.fileId = some st) : st.checkpointing = true := by
  obtain ⟨st0, hst0, rfl, -⟩ := Env.lookup_apply hst
  rw [Effect.checkpointing_onFile _ _ he]
  exact h.taken i w c st0 hw hl hc hst0

/-- A worker that replaces worker `i` without being inside more locks, under an effect that touches
    no lock, keeps the invariant. -/
theorem Session.Locks.set {s : Session} {e : Effect} (h : s.Locks) (he : ∀ id b, e ≠ .setLock id b)
    {i : Nat} {w w' : Worker} (hw : s.workers[i]? = some w)
    (hl : w'.pc.Locked → w.pc.Locked ∧ w'.current = w.current)
    (hend : (∃ r, w.pc = .ended r) → ∃ r, w'.pc = .ended r) :
    ({ s with env := s.env.apply e, workers := s.workers.set i w' } : Session).Locks := by
  have hget : ∀ (j : Nat) v, (s.workers.set i w')[j]? = some v → v.pc.Locked →
      ∃ v0, s.workers[j]? = some v0 ∧ v0.pc.Locked ∧ v.current = v0.current := by
    intro j v hj hv
    rcases of_getElem?_set hj with ⟨rfl, rfl⟩ | ⟨-, hj⟩
    · exact ⟨w, hw, (hl hv).1, (hl hv).2⟩
    · exact ⟨v, hj, hv, rfl⟩
  refine ⟨?_, ?_, ?_⟩
  · intro j v c st hj hv hc hst
    obtain ⟨v0, hv0, hl0, hcur⟩ := hget j v hj hv
    exact h.apply he hv0 hl0 (hcur ▸ hc) hst
  · intro j k v u c d hj hk hv hu hc hd hid
    obtain ⟨v0, hv0, hl0, hcur0⟩ := hget j v hj hv
    obtain ⟨u0, hu0, hl1, hcur1⟩ := hget k u hk hu
    exact h.unique j k v0 u0 c d hv0 hu0 hl0 hl1 (hcur0 ▸ hc) (hcur1 ▸ hd) hid
  · intro hj v hv
    rcases List.mem_or_eq_of_mem_set hv with hv | rfl
    · exact h.ended hj v hv
    · exact hend (h.ended hj w (List.mem_of_getElem? hw))

/-- A worker that has ended takes no step. -/
theorem WorkerMove.running {p : Params} {env : Env} {w w' : Worker} {e : Effect}
    (h : WorkerMove p env w w' e) (r : Except Error Unit) : w.pc ≠ .ended r := by
  cases h with
  | fails inbox e hpc hrun => exact hrun r
  | _ => simp [*]

theorem SessionMove.locks {p : Params} {s s' : Session} {e : Effect} (h : SessionMove p s s' e)
    (hl : s.Locks) : s'.Locks := by
  cases h with
  | arrives hw hopen inbox closed =>
      exact hl.set (e := .quiet) nofun hw (fun h => ⟨h, rfl⟩) fun h => h
  | @worker i w w' e hw hmove =>
      have hend : (∃ r, w.pc = .ended r) → ∃ r, w'.pc = .ended r :=
        fun ⟨r, hr⟩ => absurd hr (hmove.running r)
      rcases hmove.locked_cases with ⟨hcur, hin, -, he⟩ | ⟨-, hout, he⟩ |
        ⟨c, st, hcur, hcur', hout, hin', hst, hfree, rfl⟩ | ⟨c, hcur, hin, hout', rfl⟩
      · exact hl.set he hw (fun _ => ⟨hin, hcur⟩) hend
      · exact hl.set he hw (fun h => absurd h hout) hend
      · -- worker `i` takes the lock, which no other worker can be inside of
        have hothers : ∀ (j : Nat) v d, s.workers[j]? = some v → v.pc.Locked → v.current = some d →
            d.fileId ≠ c.fileId := by
          intro j v d hj hv hd hid
          have := hl.taken j v d st hj hv hd (hid ▸ hst)
          rw [hfree] at this
          cases this
        refine ⟨?_, ?_, fun hj v hv => ?_⟩
        · intro j v d st' hj hv hd hst'
          obtain ⟨st0, hst0, rfl, -⟩ := Env.lookup_apply hst'
          simp only [Effect.onFile]
          split
          · rfl
          · next hid =>
              rcases of_getElem?_set hj with ⟨-, rfl⟩ | ⟨-, hj⟩
              · obtain rfl := Option.some.inj (hcur'.symm.trans hd)
                exact absurd rfl hid
              · exact hl.taken j v d st0 hj hv hd hst0
        · intro j k v u d d' hj hk hv hu hd hd' hid
          rcases of_getElem?_set hj with ⟨hij, rfl⟩ | ⟨-, hj'⟩ <;>
            rcases of_getElem?_set hk with ⟨hik, rfl⟩ | ⟨-, hk'⟩
          · exact hij ▸ hik
          · obtain rfl := Option.some.inj (hcur'.symm.trans hd)
            exact absurd hid.symm (hothers k u d' hk' hu hd')
          · obtain rfl := Option.some.inj (hcur'.symm.trans hd')
            exact absurd hid (hothers j v d hj' hv hd)
          · exact hl.unique j k v u d d' hj' hk' hv hu hd hd' hid
        · obtain ⟨r, hr⟩ := hl.ended hj w (List.mem_of_getElem? hw)
          exact absurd hr (hmove.running r)
      · -- worker `i` drops the lock, which no other worker is inside of
        have hstill : ∀ (j : Nat) v, (s.workers.set i w')[j]? = some v → v.pc.Locked →
            i ≠ j ∧ s.workers[j]? = some v := by
          intro j v hj hv
          rcases of_getElem?_set hj with ⟨-, rfl⟩ | hj
          · exact absurd hv hout'
          · exact hj
        refine ⟨?_, ?_, fun hj v hv => ?_⟩
        · intro j v d st' hj hv hd hst'
          obtain ⟨hij, hj⟩ := hstill j v hj hv
          obtain ⟨st0, hst0, rfl, -⟩ := Env.lookup_apply hst'
          simp only [Effect.onFile]
          split
          · next hid => exact absurd (hl.unique i j w v c d hw hj hin hv hcur hd hid.symm) hij
          · exact hl.taken j v d st0 hj hv hd hst0
        · intro j k v u d d' hj hk hv hu hd hd' hid
          exact hl.unique j k v u d d' (hstill j v hj hv).2 (hstill k u hk hu).2 hv hu hd hd' hid
        · obtain ⟨r, hr⟩ := hl.ended hj w (List.mem_of_getElem? hw)
          exact absurd hr (hmove.running r)
  | accepts hmain =>
      have hget : ∀ (j : Nat) v, (s.workers ++ [Worker.fresh])[j]? = some v → v.pc.Locked →
          s.workers[j]? = some v := by
        intro j v hj hv
        rw [List.getElem?_append] at hj
        split at hj
        · exact hj
        · obtain rfl := List.mem_singleton.1 (List.mem_of_getElem? hj)
          exact hv.elim
      refine ⟨?_, ?_, fun hj => hj.elim⟩
      · intro j v d st hj hv hd hst
        exact hl.taken j v d st (hget j v hj hv) hv hd hst
      · intro j k v u d d' hj hk hv hu hd hd' hid
        exact hl.unique j k v u d d' (hget j v hj hv) (hget k u hk hu) hv hu hd hd' hid
  | refuses hmain error => exact ⟨hl.taken, hl.unique, fun hj => hj.elim⟩
  | joins hmain hended horder hnext => exact ⟨hl.taken, hl.unique, fun _ => hended⟩
  | main hmove =>
      obtain ⟨hjoined, he⟩ := hmove.joined
      exact ⟨fun i w c st hw hin hc hst => hl.apply he hw hin hc hst, hl.unique,
        fun hj => hl.ended (hjoined hj)⟩

end AetherLink
