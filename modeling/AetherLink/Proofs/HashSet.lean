import AetherLink.Lib.Run
import AetherLink.Lib.Tally
import AetherLink.Proto.HashSet
import AetherLink.Spec.TableHash

set_option autoImplicit false

/-! # Hashes in any order

Whatever calls a `ChunkHashSet` has seen, in whatever order, a slot holds the hash of the first call for
its index (`Records`): that is what `lookup` finds in the list of the calls. So the set, and with it the
root, depends on the calls only through the map they record. -/

namespace AetherLink

/-- Taking every element out succeeds when each is there. -/
theorem mapM_id_map_some {α : Type} (xs : List α) : (xs.map some).mapM id = some xs := by
  induction xs with
  | nil => rfl
  | cons x xs ih =>
      rw [List.map_cons, List.mapM_cons, ih]
      rfl

theorem exists_map_some {α : Type} {l : List (Option α)} (h : ∀ x ∈ l, x.isSome = true) :
    ∃ xs : List α, l = xs.map some := by
  induction l with
  | nil => exact ⟨[], rfl⟩
  | cons x l ih =>
      obtain ⟨a, rfl⟩ := Option.isSome_iff_exists.1 (h x List.mem_cons_self)
      obtain ⟨xs, rfl⟩ := ih fun y hy => h y (List.mem_cons_of_mem _ hy)
      exact ⟨a :: xs, rfl⟩

/-- A last pair counts only where nothing was found before it. -/
theorem lookup_concat {α β : Type} [DecidableEq α] (l : List (α × β)) (a : α) (b : β) (k : α) :
    (l ++ [(a, b)]).lookup k = (l.lookup k).or (if k = a then some b else none) := by
  rw [List.lookup_append, List.lookup_cons]
  by_cases hk : k = a
  · rw [beq_iff_eq.2 hk, if_pos hk]
  · rw [beq_eq_false_iff_ne.2 hk, if_neg hk, List.lookup_nil]

namespace ChunkHashSet

variable {n : UInt64} {calls calls' : List (UInt64 × Hash)} {set : ChunkHashSet}

/-! ## What a set has recorded -/

/-- The set has seen these calls: every slot holds the hash of the first call for its index, and the
    filled slots are counted. -/
structure Records (n : UInt64) (calls : List (UInt64 × Hash)) (set : ChunkHashSet) : Prop where
  length_eq : set.hashes.length = n.toNat
  slots : ∀ i, i < n → set.hashes[i.toNat]? = some (calls.lookup i)
  filled_eq : set.filled.toNat = set.hashes.countP Option.isSome

theorem Records.new (n : UInt64) : Records n [] (new n) where
  length_eq := List.length_replicate
  slots := fun i hi => by
    rw [ChunkHashSet.new, List.getElem?_replicate, if_pos (UInt64.lt_iff_toNat_lt.1 hi)]
    rfl
  filled_eq := by
    rw [ChunkHashSet.new, List.countP_replicate]
    rfl

/-- A call that leaves the set as it is has come too late, or for no slot. -/
theorem Records.keeps {index : UInt64} {hash : Hash} (h : Records n calls set)
    (hlate : index < n → ∃ first, calls.lookup index = some first) :
    Records n (calls ++ [(index, hash)]) set := by
  refine ⟨h.length_eq, fun i hi => ?_, h.filled_eq⟩
  rw [h.slots i hi, lookup_concat]
  by_cases hindex : i = index
  · obtain ⟨first, hfirst⟩ := hlate (hindex ▸ hi)
    rw [hindex, hfirst, Option.some_or]
  · rw [if_neg hindex, Option.or_none]

theorem Records.fills {index : UInt64} {hash : Hash} (h : Records n calls set) (hlt : index < n)
    (hfirst : calls.lookup index = none) :
    Records n (calls ++ [(index, hash)])
      { hashes := set.hashes.set index.toNat (some hash), filled := set.filled + 1 } := by
  have hslot : set.hashes[index.toNat]? = some none := hfirst ▸ h.slots index hlt
  have hcount := List.countP_set_add hslot (some hash) Option.isSome
  -- one slot was still empty, so the counter is below the number of slots
  have hbound : (set.hashes.set index.toNat (some hash)).countP Option.isSome ≤ n.toNat := by
    rw [← h.length_eq]
    exact List.countP_le_length.trans (Nat.le_of_eq List.length_set)
  have hfilled := h.filled_eq
  have hn := n.toNat_lt
  simp only [Option.isSome_none, Option.isSome_some, Bool.toNat_false, Bool.toNat_true] at hcount
  refine ⟨by rw [List.length_set, h.length_eq], fun i hi => ?_, ?_⟩
  · rw [lookup_concat]
    by_cases hindex : i = index
    · subst hindex
      rw [hfirst, if_pos rfl, Option.none_or,
        List.getElem?_set_self (List.getElem?_eq_some_iff.1 hslot).1]
    · rw [if_neg hindex, Option.or_none, List.getElem?_set_ne, h.slots i hi]
      exact fun heq => hindex (UInt64.toNat_inj.1 heq.symm)
  · simp only [UInt64.toNat_add, UInt64.toNat_one]
    omega

/-- **Step lemma.** -/
theorem Records.insert (h : Records n calls set) (call : UInt64 × Hash) :
    Records n (calls ++ [call]) (set.insert call.1 call.2).1 := by
  obtain ⟨index, hash⟩ := call
  by_cases hlt : index < n
  · cases hfirst : calls.lookup index with
    | some first =>
        rw [insert_recorded (hfirst ▸ h.slots index hlt)]
        exact h.keeps fun _ => ⟨first, hfirst⟩
    | none =>
        rw [insert_fresh (hfirst ▸ h.slots index hlt)]
        exact h.fills hlt hfirst
  · rw [insert_outside]
    · exact h.keeps fun h => absurd h hlt
    · rw [h.length_eq]
      exact UInt64.le_iff_toNat_le.1 (UInt64.not_lt.1 hlt)

/-! ## Sequences of calls -/

/-- A call as a step: it is always enabled, whatever it answers. -/
def step (set : ChunkHashSet) (call : UInt64 × Hash) : Option ChunkHashSet :=
  some (set.insert call.1 call.2).1

theorem runs_step (set : ChunkHashSet) (calls : List (UInt64 × Hash)) :
    Run.runs step set calls = some (set.insertAll calls) := by
  induction calls generalizing set with
  | nil => rfl
  | cons call calls ih =>
      rw [Run.runs_cons, step, Option.bind_some, ih]
      rfl

/-- **Run lemma.** After any calls a new set has recorded just these. -/
theorem records_insertAll (n : UInt64) (calls : List (UInt64 × Hash)) :
    Records n calls ((new n).insertAll calls) :=
  Run.invariant_history (I := Records n) (P := fun _ => True)
    (fun _ _ call _ h _ hs => Option.some.inj hs ▸ h.insert call) (Records.new n)
    (fun _ _ => trivial) (runs_step (new n) calls)

/-- No call of the sequence is refused for a conflict. -/
def ConflictFree (n : UInt64) (calls : List (UInt64 × Hash)) : Prop :=
  Run.Meets step (fun set call =>
    (set.insert call.1 call.2).2 ≠ .error (.chunkHashConflict call.1.toNat)) (new n) calls

/-- Without a conflict every call for a slot agrees with the first one. -/
theorem ConflictFree.lookup_eq (h : ConflictFree n calls) {call : UInt64 × Hash} (hmem : call ∈ calls)
    (hlt : call.1 < n) : calls.lookup call.1 = some call.2 := by
  obtain ⟨pre, post, rfl⟩ := List.append_of_mem hmem
  have hslot := (records_insertAll n pre).slots call.1 hlt
  have hanswer := (Run.Meets.append h (runs_step (new n) pre)).2.1
  rw [List.lookup_append]
  cases hfirst : pre.lookup call.1 with
  | none => rw [Option.none_or, List.lookup_cons_self]
  | some existing =>
      rw [hfirst] at hslot
      by_contra hother
      refine hanswer (insert_error_iff.2 (Or.inr ⟨⟨existing, hslot, ?_⟩, rfl⟩))
      exact fun hsame => hother (by rw [hsame, Option.some_or])

theorem ConflictFree.lookup_eq_some_iff (h : ConflictFree n calls) {i : UInt64} {hash : Hash}
    (hlt : i < n) : calls.lookup i = some hash ↔ (i, hash) ∈ calls := by
  refine ⟨fun hfound => ?_, fun hmem => h.lookup_eq hmem hlt⟩
  obtain ⟨l₁, l₂, rfl, -⟩ := List.lookup_eq_some_iff.1 hfound
  simp

/-- **Sets that have recorded the same map are equal.** -/
theorem Records.unique {set' : ChunkHashSet} (h : Records n calls set)
    (h' : Records n calls' set') (hsame : ∀ i, i < n → calls.lookup i = calls'.lookup i) :
    set = set' := by
  have hhashes : set.hashes = set'.hashes := by
    apply List.ext_getElem?
    intro k
    by_cases hk : k < n.toNat
    · have hlt : k < 2 ^ 64 := hk.trans n.toNat_lt
      have hindex : (UInt64.ofNat k).toNat = k := UInt64.toNat_ofNat_of_lt' hlt
      have hin : UInt64.ofNat k < n := UInt64.lt_iff_toNat_lt.2 (hindex.symm ▸ hk)
      have hslot := h.slots _ hin
      have hslot' := h'.slots _ hin
      rw [hindex] at hslot hslot'
      rw [hslot, hslot', hsame _ hin]
    · rw [List.getElem?_eq_none (by rw [h.length_eq]; omega),
        List.getElem?_eq_none (by rw [h'.length_eq]; omega)]
  have hfilled : set.filled = set'.filled := by
    rw [← UInt64.toNat_inj, h.filled_eq, h'.filled_eq, hhashes]
  cases set
  cases set'
  simp only at hhashes hfilled
  rw [hhashes, hfilled]

/-! ## The root -/

theorem Records.isComplete_iff (h : Records n calls set) :
    set.isComplete = true ↔ ∀ x ∈ set.hashes, x.isSome = true := by
  have hlen : (UInt64.ofNat set.hashes.length).toNat = set.hashes.length := by
    rw [h.length_eq]
    exact UInt64.toNat_ofNat_of_lt' n.toNat_lt
  rw [isComplete, beq_iff_eq, ← UInt64.toNat_inj, hlen, h.filled_eq, List.countP_eq_length]

/-- The slots are all filled when every index has been recorded. -/
theorem Records.all_isSome_iff (h : Records n calls set) :
    (∀ x ∈ set.hashes, x.isSome = true) ↔ ∀ i, i < n → ∃ hash, (i, hash) ∈ calls := by
  constructor
  · intro hall i hi
    obtain ⟨hash, hfound⟩ := Option.isSome_iff_exists.1 (hall _ (List.mem_of_getElem? (h.slots i hi)))
    obtain ⟨l₁, l₂, rfl, -⟩ := List.lookup_eq_some_iff.1 hfound
    exact ⟨hash, by simp⟩
  · intro hall x hx
    obtain ⟨k, hk, rfl⟩ := List.getElem_of_mem hx
    rw [h.length_eq] at hk
    have hindex : (UInt64.ofNat k).toNat = k := UInt64.toNat_ofNat_of_lt' (hk.trans n.toNat_lt)
    have hin : UInt64.ofNat k < n := UInt64.lt_iff_toNat_lt.2 (hindex.symm ▸ hk)
    have hslot := h.slots _ hin
    rw [hindex, List.getElem?_eq_some_iff] at hslot
    obtain ⟨_, hslot⟩ := hslot
    obtain ⟨hash, hmem⟩ := hall _ hin
    rw [hslot, Option.isSome_iff_ne_none]
    exact fun hnone => bne_iff_ne.1 (List.lookup_eq_none_iff.1 hnone _ hmem) rfl

/-- **The root of a set**: none while an index is missing, and else the root of the first hashes in
    index order. -/
theorem Records.root_eq (blake3 : Blake3) (h : Records n calls set) :
    (set.root blake3 = some none ∧ ¬ ∀ i, i < n → ∃ hash, (i, hash) ∈ calls) ∨
    (∀ i, i < n → ∃ hash, (i, hash) ∈ calls) ∧ ∃ hs : List Hash, hs.length = n.toNat ∧
      (∀ i, i < n → hs[i.toNat]? = calls.lookup i) ∧
      set.root blake3 = some (some (rootFromChunkHashes blake3 hs)) := by
  by_cases hall : ∀ x ∈ set.hashes, x.isSome = true
  · obtain ⟨hs, hhs⟩ := exists_map_some hall
    refine Or.inr ⟨h.all_isSome_iff.1 hall, hs, ?_, fun i hi => ?_, ?_⟩
    · rw [← h.length_eq, hhs, List.length_map]
    · have hslot := h.slots i hi
      rw [hhs, List.getElem?_map, Option.map_eq_some_iff] at hslot
      obtain ⟨hash, hhash, hfirst⟩ := hslot
      rw [hhash, hfirst]
    · rw [root, h.isComplete_iff.2 hall, hhs, mapM_id_map_some]
      rfl
  · refine Or.inl ⟨?_, fun hrec => hall (h.all_isSome_iff.2 hrec)⟩
    rw [root, Bool.eq_false_iff.2 fun hc => hall (h.isComplete_iff.1 hc)]
    rfl

/-- What is recorded stays. -/
theorem insertAll_recorded {i : Nat} {hash : Hash} (h : set.hashes[i]? = some (some hash))
    (later : List (UInt64 × Hash)) : (set.insertAll later).hashes[i]? = some (some hash) := by
  refine Run.invariant (I := fun set => set.hashes[i]? = some (some hash)) ?_ h
    (runs_step set later)
  intro set call set' hset hstep
  obtain rfl := Option.some.inj hstep
  simp only [ChunkHashSet.insert]
  split
  · exact hset
  · split <;> exact hset
  · next hslot =>
      rw [List.getElem?_set_ne]
      · exact hset
      · intro heq
        rw [heq, hset] at hslot
        cases hslot

/-- **Order does not matter.** After any calls on a new set: the counter is the number of filled slots;
    a call that fails leaves the set as it is; a slot holds the first hash recorded for its index, and
    keeps it; computing the root does not panic, and gives one exactly when every index has been
    recorded, over these hashes in index order. And two sequences without a conflict that record the
    same hashes give the same root. -/
theorem hash_set_any_order (blake3 : Blake3) (n : UInt64) (calls : List (UInt64 × Hash)) :
    let set := (new n).insertAll calls
    set.filled.toNat = set.hashes.countP Option.isSome ∧
    (∀ index hash e, (set.insert index hash).2 = .error e → (set.insert index hash).1 = set) ∧
    (∀ i, i < n → set.hashes[i.toNat]? = some (calls.lookup i)) ∧
    (∀ (i : Nat) hash later, set.hashes[i]? = some (some hash) →
      (set.insertAll later).hashes[i]? = some (some hash)) ∧
    set.root blake3 ≠ none ∧
    ((∃ r, set.root blake3 = some (some r)) ↔ ∀ i, i < n → ∃ hash, (i, hash) ∈ calls) ∧
    (∀ r, set.root blake3 = some (some r) → ∃ hs : List Hash, hs.length = n.toNat ∧
      (∀ i, i < n → hs[i.toNat]? = calls.lookup i) ∧ r = rootFromChunkHashes blake3 hs) ∧
    ∀ calls', ConflictFree n calls → ConflictFree n calls' →
      (∀ call : UInt64 × Hash, call.1 < n → (call ∈ calls ↔ call ∈ calls')) →
      ((new n).insertAll calls').root blake3 = set.root blake3 := by
  intro set
  have hset : Records n calls set := records_insertAll n calls
  refine ⟨hset.filled_eq, fun _ _ _ => insert_of_error, hset.slots,
    fun _ _ later h => insertAll_recorded h later, ?_, ?_, ?_, ?_⟩
  · rcases hset.root_eq blake3 with ⟨hroot, -⟩ | ⟨-, hs, -, -, hroot⟩ <;> simp [hroot]
  · rcases hset.root_eq blake3 with ⟨hroot, hmissing⟩ | ⟨hall, hs, -, -, hroot⟩
    · refine iff_of_false ?_ hmissing
      rintro ⟨r, hr⟩
      rw [hroot] at hr
      cases hr
    · exact iff_of_true ⟨_, hroot⟩ hall
  · intro r hr
    rcases hset.root_eq blake3 with ⟨hroot, -⟩ | ⟨-, hs, hlen, hslots, hroot⟩
    · rw [hroot] at hr
      cases hr
    · rw [hroot, Option.some.injEq, Option.some.injEq] at hr
      exact ⟨hs, hlen, hslots, hr.symm⟩
  · intro calls' hfree hfree' hsame
    have hlookup : ∀ i, i < n → calls'.lookup i = calls.lookup i := fun i hi =>
      Option.ext fun hash => by
        rw [hfree'.lookup_eq_some_iff hi, hfree.lookup_eq_some_iff hi, hsame _ hi]
    rw [(records_insertAll n calls').unique hset hlookup]

/-- Two chunks, in order and in the other order with a repeated hash and an index that is too large. -/
theorem hash_set_any_order_two :
    ((new 2).insertAll [(1, digestB), (7, digestA), (1, digestB), (0, digestA)]).root shortFileHash
      = ((new 2).insertAll [(0, digestA), (1, digestB)]).root shortFileHash := by
  refine (hash_set_any_order shortFileHash 2 [(0, digestA), (1, digestB)]).2.2.2.2.2.2.2
    [(1, digestB), (7, digestA), (1, digestB), (0, digestA)] ?_ ?_ ?_
  · unfold ConflictFree
    decide
  · unfold ConflictFree
    decide
  · rintro ⟨i, hash⟩ hi
    have hseven : ¬ (7 : UInt64) < 2 := by decide
    simp only [List.mem_cons, List.not_mem_nil, or_false, Prod.mk.injEq]
    constructor
    · rintro (h | h)
      · exact Or.inr (Or.inr (Or.inr h))
      · exact Or.inl h
    · rintro (h | h | h | h)
      · exact Or.inr h
      · exact absurd (h.1 ▸ hi) hseven
      · exact Or.inr h
      · exact Or.inl h

end ChunkHashSet

end AetherLink
