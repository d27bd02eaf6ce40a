import Mathlib.Data.List.AList
import Mathlib.Algebra.Order.BigOperators.Group.List
import Mathlib.Algebra.Order.Group.Nat
import Mathlib.Algebra.BigOperators.Ring.List
import Mathlib.Algebra.Ring.Nat

set_option autoImplicit false

/-! # Adding up a measure

`AList.tally` adds up a measure over the entries of a map. Storing a value under a key that is
already there exchanges one summand (`AList.tally_insert`), as replacing an element of a list does
(`List.sum_map_set`), so a step that touches one entry can be accounted for entry by entry. -/

namespace AList

variable {κ α : Type} {m : AList fun _ : κ => α} {f g : α → Nat}

/-- The measure `f` summed over the entries of the map. -/
def tally (f : α → Nat) (m : AList fun _ : κ => α) : Nat :=
  (m.entries.map fun x => f x.2).sum

@[simp] theorem tally_empty (f : α → Nat) : tally f (∅ : AList fun _ : κ => α) = 0 := rfl

theorem tally_add : tally (fun v => f v + g v) m = tally f m + tally g m :=
  List.sum_map_add

theorem tally_mul (c : Nat) : tally (fun v => f v * c) m = tally f m * c :=
  List.sum_map_mul_right m.entries (fun x => f x.2) c

variable [DecidableEq κ]

theorem tally_insert_of_lookup_eq_none {k : κ} (h : m.lookup k = none) (v : α) :
    tally f (m.insert k v) = f v + tally f m := by
  rw [tally, AList.entries_insert_of_notMem (AList.lookup_eq_none.1 h), List.map_cons, List.sum_cons]
  rfl

/-- **A replaced value is exchanged in the sum.** -/
theorem tally_insert {k : κ} {v : α} (h : m.lookup k = some v) (v' : α) :
    tally f (m.insert k v') + f v = tally f m + f v' := by
  have hmem : k ∈ m.entries.keys := AList.lookup_isSome.1 (by rw [h]; rfl)
  obtain ⟨u, l₁, l₂, -, hl, herase⟩ := List.exists_of_kerase hmem
  have hu : m.lookup k = some u := AList.mem_lookup_iff.2 (by rw [hl]; simp)
  obtain rfl := Option.some.inj (h.symm.trans hu)
  rw [tally, tally, AList.entries_insert, herase, hl]
  simp only [List.map_cons, List.map_append, List.sum_cons, List.sum_append]
  omega

theorem tally_le_tally (h : ∀ k v, m.lookup k = some v → f v ≤ g v) : tally f m ≤ tally g m :=
  List.sum_le_sum fun x hx => h x.1 x.2 (AList.mem_lookup_iff.2 hx)

theorem tally_congr (h : ∀ k v, m.lookup k = some v → f v = g v) : tally f m = tally g m := by
  unfold tally
  rw [List.map_congr_left fun x hx => h x.1 x.2 (AList.mem_lookup_iff.2 hx)]

theorem tally_eq_zero_iff : tally f m = 0 ↔ ∀ k v, m.lookup k = some v → f v = 0 := by
  rw [tally, List.sum_eq_zero_iff_forall_eq_nat]
  constructor
  · intro h k v hv
    exact h _ (List.mem_map_of_mem (f := fun x : (_ : κ) × α => f x.2) (AList.mem_lookup_iff.1 hv))
  · intro h n hn
    obtain ⟨x, hx, rfl⟩ := List.mem_map.1 hn
    exact h x.1 x.2 (AList.mem_lookup_iff.2 hx)

end AList

/-- A replaced element is exchanged in the sum. -/
theorem List.sum_map_set {α : Type} {l : List α} {i : Nat} {a : α} (h : l[i]? = some a) (a' : α)
    (f : α → Nat) : ((l.set i a').map f).sum + f a = (l.map f).sum + f a' := by
  induction l generalizing i with
  | nil => cases h
  | cons b l ih =>
      cases i with
      | zero =>
          obtain rfl : b = a := Option.some.inj h
          simp only [List.set_cons_zero, List.map_cons, List.sum_cons]
          omega
      | succ i =>
          have hl : l[i]? = some a := h
          have := ih hl
          simp only [List.set_cons_succ, List.map_cons, List.sum_cons]
          omega

/-- The lists of a replaced element are exchanged, up to the order. -/
theorem List.flatMap_set_perm {α β : Type} {l : List α} {i : Nat} {a : α} (h : l[i]? = some a)
    (a' : α) (f : α → List β) : ((l.set i a').flatMap f ++ f a).Perm (l.flatMap f ++ f a') := by
  induction l generalizing i with
  | nil => cases h
  | cons b l ih =>
      cases i with
      | zero =>
          obtain rfl : b = a := Option.some.inj h
          rw [List.set_cons_zero, List.flatMap_cons, List.flatMap_cons]
          have hfront : (f a' ++ l.flatMap f ++ f b).Perm (f b ++ (f a' ++ l.flatMap f)) :=
            List.perm_append_comm
          have hback : (f b ++ (f a' ++ l.flatMap f)).Perm (f b ++ (l.flatMap f ++ f a')) :=
            List.perm_append_comm.append_left _
          rw [List.append_assoc (f b)]
          exact hfront.trans hback
      | succ i =>
          have hl : l[i]? = some a := h
          rw [List.set_cons_succ, List.flatMap_cons, List.flatMap_cons, List.append_assoc,
            List.append_assoc]
          exact (ih hl).append_left _

/-- A count is a sum of ones. -/
theorem List.countP_eq_sum_map {α : Type} (p : α → Bool) (l : List α) :
    l.countP p = (l.map fun a => (p a).toNat).sum := by
  induction l with
  | nil => rfl
  | cons a l ih =>
      rw [List.countP_cons, List.map_cons, List.sum_cons, ih, Nat.add_comm]
      cases p a <;> rfl

/-- A replaced element is exchanged in the count. -/
theorem List.countP_set_add {α : Type} {l : List α} {i : Nat} {a : α} (h : l[i]? = some a) (a' : α)
    (p : α → Bool) : (l.set i a').countP p + (p a).toNat = l.countP p + (p a').toNat := by
  rw [List.countP_eq_sum_map, List.countP_eq_sum_map]
  exact List.sum_map_set h a' _

/-- Two places that count are two. -/
theorem List.two_le_countP {α : Type} {p : α → Bool} {l : List α} {i j : Nat} {x y : α}
    (hx : l[i]? = some x) (hy : l[j]? = some y) (hpx : p x = true) (hpy : p y = true)
    (hij : i < j) : 2 ≤ l.countP p := by
  have hsplit : l.countP p = (l.take j).countP p + (l.drop j).countP p := by
    rw [← List.countP_append, List.take_append_drop]
  have hleft : 0 < (l.take j).countP p := by
    refine List.countP_pos_iff.2 ⟨x, List.mem_of_getElem? (i := i) ?_, hpx⟩
    rw [List.getElem?_take_of_lt hij, hx]
  have hright : 0 < (l.drop j).countP p := by
    refine List.countP_pos_iff.2 ⟨y, List.mem_of_getElem? (i := 0) ?_, hpy⟩
    rw [List.getElem?_drop, Nat.add_zero, hy]
  omega

/-- A replaced element is exchanged in the count, also where the predicate changes at its place. -/
theorem List.countP_zipIdx_set {α : Type} {p q : α × Nat → Bool} {l : List α} {i : Nat} {a : α}
    (h : l[i]? = some a) (a' : α) (hpq : ∀ x j, j ≠ i → q (x, j) = p (x, j)) :
    (l.set i a').zipIdx.countP q + (p (a, i)).toNat = l.zipIdx.countP p + (q (a', i)).toNat := by
  suffices hfrom : ∀ (l : List α) (i k : Nat), l[i]? = some a →
      (∀ x j, j ≠ k + i → q (x, j) = p (x, j)) →
      ((l.set i a').zipIdx k).countP q + (p (a, k + i)).toNat
        = (l.zipIdx k).countP p + (q (a', k + i)).toNat by
    have hzero := hfrom l i 0 h (by simpa using hpq)
    simpa using hzero
  intro l
  induction l with
  | nil => intro i k h; cases h
  | cons b l ih =>
      intro i k h hpq
      cases i with
      | zero =>
          obtain rfl : b = a := Option.some.inj h
          have hrest : (l.zipIdx (k + 1)).countP q = (l.zipIdx (k + 1)).countP p := by
            refine List.countP_congr fun x hx => ?_
            have hge := List.le_snd_of_mem_zipIdx hx
            rw [hpq x.1 x.2 (by omega)]
          simp only [List.set_cons_zero, List.zipIdx_cons, List.countP_cons, hrest, Nat.add_zero]
          cases p (b, k) <;> cases q (a', k) <;> simp
      | succ i =>
          have hl : l[i]? = some a := h
          have hnext := ih i (k + 1) hl fun x j hj => hpq x j (by omega)
          have hhead : q (b, k) = p (b, k) := hpq b k (by omega)
          have hindex : k + 1 + i = k + (i + 1) := by omega
          rw [hindex] at hnext
          simp only [List.set_cons_succ, List.zipIdx_cons, List.countP_cons, hhead]
          omega

theorem List.countP_zipIdx_concat {α : Type} {p q : α × Nat → Bool} {l : List α} (a : α)
    (hpq : ∀ x j, j ≠ l.length → q (x, j) = p (x, j)) :
    (l ++ [a]).zipIdx.countP q = l.zipIdx.countP p + (q (a, l.length)).toNat := by
  have hrest : l.zipIdx.countP q = l.zipIdx.countP p := by
    refine List.countP_congr fun x hx => ?_
    have hlt := List.snd_lt_of_mem_zipIdx hx
    rw [hpq x.1 x.2 (by omega)]
  rw [List.zipIdx_append, List.countP_append, hrest]
  cases hlast : q (a, l.length) <;> simp [hlast]
