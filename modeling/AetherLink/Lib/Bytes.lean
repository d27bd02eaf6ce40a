import Mathlib.Data.List.Basic
import Mathlib.Tactic.Ring

set_option autoImplicit false

/-! # Byte strings addressed by position

The content of a regular file is a finite list of bytes. This file has the three ways a file
operation reads or changes it (`slice`, `setLen`, `pwrite`), the little-endian codec for
fixed-width numbers, and the predicate the crash and concurrency arguments are stated with:
`Carries cs off p`, the content `cs` holds the bytes `p` at offset `off`.

Everything is characterised by `getElem?`, so that two contents are compared position by
position and no lemma depends on how `pwrite` is cut out of `take` and `drop`. -/

namespace Bytes

/-- The bytes of `cs` in `[off, off + len)`; shorter where `cs` ends earlier. -/
def slice (cs : List UInt8) (off len : Nat) : List UInt8 :=
  (cs.drop off).take len

/-- `ftruncate`: cut at `n`, or extend with zero bytes up to `n`. -/
def setLen (cs : List UInt8) (n : Nat) : List UInt8 :=
  cs.take n ++ List.replicate (n - cs.length) 0

/-- One positional write of `bs` at `off`. A gap before `off` reads as zeros, and writing no byte
    changes nothing. -/
def pwrite (cs : List UInt8) (off : Nat) (bs : List UInt8) : List UInt8 :=
  if bs = [] then cs
  else setLen (cs.take off) off ++ bs ++ cs.drop (off + bs.length)

/-- The byte at `pos`, reading zero past the end. -/
def byteAt (cs : List UInt8) (pos : Nat) : UInt8 :=
  cs.getD pos 0

/-! ## Reading a position -/

theorem getElem?_slice (cs : List UInt8) (off len k : Nat) :
    (slice cs off len)[k]? = if k < len then cs[off + k]? else none := by
  unfold slice
  rw [List.getElem?_take]
  split
  · rw [List.getElem?_drop]
  · rfl

theorem length_slice (cs : List UInt8) (off len : Nat) :
    (slice cs off len).length = min len (cs.length - off) := by
  simp [slice]

theorem length_slice_of_le {cs : List UInt8} {off len : Nat} (h : off + len ≤ cs.length) :
    (slice cs off len).length = len := by
  rw [length_slice]
  omega

@[simp] theorem length_setLen (cs : List UInt8) (n : Nat) : (setLen cs n).length = n := by
  simp only [setLen, List.length_append, List.length_take, List.length_replicate]
  omega

theorem getElem?_setLen (cs : List UInt8) (n k : Nat) :
    (setLen cs n)[k]? = if k < n then some (byteAt cs k) else none := by
  unfold setLen byteAt
  rw [List.getElem?_append, List.length_take, List.getElem?_take, List.getElem?_replicate,
    List.getD_eq_getElem?_getD]
  by_cases hk : k < n
  · rw [if_pos hk, if_pos hk]
    by_cases hc : k < cs.length
    · rw [if_pos (by omega), List.getElem?_eq_getElem hc, Option.getD_some]
    · rw [if_neg (by omega), if_pos (by omega), List.getElem?_eq_none (by omega), Option.getD_none]
  · rw [if_neg hk, if_neg (show ¬k < min n cs.length by omega),
      if_neg (show ¬k - min n cs.length < n - cs.length by omega), if_neg hk]

theorem byteAt_setLen (cs : List UInt8) (n k : Nat) :
    byteAt (setLen cs n) k = if k < n then byteAt cs k else 0 := by
  rw [byteAt, List.getD_eq_getElem?_getD, getElem?_setLen]
  split <;> rfl

theorem getElem?_of_lt {cs : List UInt8} {k : Nat} (h : k < cs.length) :
    cs[k]? = some (byteAt cs k) := by
  rw [byteAt, List.getD_eq_getElem?_getD, List.getElem?_eq_getElem h, Option.getD_some]

theorem setLen_self (cs : List UInt8) : setLen cs cs.length = cs := by
  simp [setLen]

/-- Growing to at least `n` first makes no difference to a later cut at `n`. -/
theorem setLen_setLen_max (cs : List UInt8) (n : Nat) :
    setLen (setLen cs (max cs.length n)) n = setLen cs n := by
  apply List.ext_getElem?
  intro k
  rw [getElem?_setLen, getElem?_setLen, byteAt_setLen]
  by_cases hk : k < n
  · rw [if_pos hk, if_pos hk, if_pos (by omega)]
  · rw [if_neg hk, if_neg hk]

theorem getElem?_pwrite (cs : List UInt8) (off : Nat) (bs : List UInt8) (k : Nat) :
    (pwrite cs off bs)[k]? =
      if bs = [] then cs[k]?
      else if k < off then some (byteAt cs k)
      else if k < off + bs.length then bs[k - off]?
      else cs[k]? := by
  unfold pwrite
  by_cases hb : bs = []
  · rw [if_pos hb, if_pos hb]
  · rw [if_neg hb, if_neg hb, List.append_assoc, List.getElem?_append, length_setLen]
    by_cases hk : k < off
    · rw [if_pos hk, if_pos hk, getElem?_setLen, if_pos hk, byteAt, byteAt,
        List.getD_eq_getElem?_getD, List.getD_eq_getElem?_getD, List.getElem?_take, if_pos hk]
    · rw [if_neg hk, if_neg hk, List.getElem?_append]
      by_cases hk' : k < off + bs.length
      · rw [if_pos hk', if_pos (by omega)]
      · rw [if_neg hk', if_neg (by omega), List.getElem?_drop]
        congr 1
        omega

theorem byteAt_pwrite (cs : List UInt8) (off : Nat) (bs : List UInt8) (k : Nat) :
    byteAt (pwrite cs off bs) k =
      if off ≤ k ∧ k < off + bs.length then byteAt bs (k - off) else byteAt cs k := by
  rw [byteAt, List.getD_eq_getElem?_getD, getElem?_pwrite]
  by_cases hb : bs = []
  · subst hb
    rw [if_pos rfl, if_neg (by simp), byteAt, List.getD_eq_getElem?_getD]
  · rw [if_neg hb]
    by_cases hk : k < off
    · rw [if_pos hk, if_neg (by omega), Option.getD_some]
    · rw [if_neg hk]
      by_cases hk' : k < off + bs.length
      · rw [if_pos hk', if_pos ⟨by omega, hk'⟩, byteAt, List.getD_eq_getElem?_getD]
      · rw [if_neg hk', if_neg (by omega), byteAt, List.getD_eq_getElem?_getD]

theorem length_pwrite_of_le {cs bs : List UInt8} {off : Nat} (h : off + bs.length ≤ cs.length) :
    (pwrite cs off bs).length = cs.length := by
  unfold pwrite
  split
  · rfl
  · simp only [List.length_append, length_setLen, List.length_drop]
    omega

theorem pwrite_nil_zero (bs : List UInt8) : pwrite [] 0 bs = bs := by
  unfold pwrite
  split
  · next h => exact h.symm
  · simp [setLen]

/-- Writing at the end appends. -/
theorem pwrite_length (cs bs : List UInt8) : pwrite cs cs.length bs = cs ++ bs := by
  unfold pwrite
  split
  · next h => rw [h, List.append_nil]
  · rw [List.take_length, setLen_self, List.drop_of_length_le (by omega), List.append_nil]

/-- Writing the next piece of a string whose first bytes are there. -/
theorem take_pwrite_slice {r : List UInt8} {done n : Nat} (h : done + n ≤ r.length) :
    pwrite (r.take done) done (slice r done n) = r.take (done + n) := by
  have hlen : (r.take done).length = done := by
    rw [List.length_take]
    omega
  have happend := pwrite_length (r.take done) (slice r done n)
  rw [hlen] at happend
  rw [happend, slice, List.take_add]

/-! ## Carrying a string at an offset -/

/-- The content `cs` holds the bytes `p` at offset `off`. -/
def Carries (cs : List UInt8) (off : Nat) (p : List UInt8) : Prop :=
  ∀ k, k < p.length → cs[off + k]? = p[k]?

theorem carries_nil (cs : List UInt8) (off : Nat) : Carries cs off [] := by
  intro k hk
  simp at hk

theorem carries_slice {cs : List UInt8} {off len : Nat} : Carries cs off (slice cs off len) := by
  intro k hk
  rw [length_slice] at hk
  rw [getElem?_slice, if_pos (by omega)]

/-- Carrying `p` is reading `p` back. -/
theorem carries_iff_slice {cs p : List UInt8} {off : Nat} :
    Carries cs off p ↔ slice cs off p.length = p := by
  constructor
  · intro h
    apply List.ext_getElem?
    intro k
    rw [getElem?_slice]
    by_cases hk : k < p.length
    · rw [if_pos hk, h k hk]
    · rw [if_neg hk, List.getElem?_eq_none (by omega)]
  · intro h
    rw [← h]
    exact carries_slice

theorem Carries.le_length {cs p : List UInt8} {off : Nat} (h : Carries cs off p) (hp : p ≠ []) :
    off + p.length ≤ cs.length := by
  have hpos : 0 < p.length := List.length_pos_of_ne_nil hp
  have hlast := h (p.length - 1) (by omega)
  rw [List.getElem?_eq_getElem (l := p) (by omega)] at hlast
  have := (List.getElem?_eq_some_iff.1 hlast).1
  omega

/-- Two strings of one length carried at one offset are equal. -/
theorem Carries.unique {cs p q : List UInt8} {off : Nat} (hp : Carries cs off p)
    (hq : Carries cs off q) (hlen : p.length = q.length) : p = q := by
  rw [← carries_iff_slice.1 hp, ← carries_iff_slice.1 hq, hlen]

theorem Carries.take {cs p : List UInt8} {off : Nat} (h : Carries cs off p) (n : Nat) :
    Carries cs off (p.take n) := by
  intro k hk
  rw [List.length_take] at hk
  rw [List.getElem?_take, if_pos (by omega)]
  exact h k (by omega)

/-- A piece of what is carried is carried at its own offset. -/
theorem Carries.piece {cs p : List UInt8} {off : Nat} (h : Carries cs off p) (j n : Nat) :
    Carries cs (off + j) (slice p j n) := by
  intro k hk
  rw [length_slice] at hk
  rw [getElem?_slice, if_pos (by omega), Nat.add_assoc]
  exact h (j + k) (by omega)

/-- Two parts carried side by side make the whole. -/
theorem Carries.append {cs p q : List UInt8} {off : Nat} (hp : Carries cs off p)
    (hq : Carries cs (off + p.length) q) : Carries cs off (p ++ q) := by
  intro k hk
  rw [List.length_append] at hk
  rw [List.getElem?_append]
  split
  · next h => exact hp k h
  · next h =>
      have := hq (k - p.length) (by omega)
      rwa [show off + p.length + (k - p.length) = off + k by omega] at this

theorem carries_pwrite_self (cs : List UInt8) (off : Nat) (bs : List UInt8) :
    Carries (pwrite cs off bs) off bs := by
  intro k hk
  have hne : bs ≠ [] := by
    rintro rfl
    simp at hk
  rw [getElem?_pwrite, if_neg hne, if_neg (by omega), if_pos (by omega)]
  congr 1
  omega

/-- A write that agrees with `p` wherever it meets it leaves `p` carried. -/
theorem Carries.after_pwrite {cs p : List UInt8} {off : Nat} (h : Carries cs off p) {o : Nat}
    {bs : List UInt8}
    (hag : ∀ k, k < p.length → o ≤ off + k → off + k < o + bs.length →
      bs[off + k - o]? = p[k]?) :
    Carries (pwrite cs o bs) off p := by
  intro k hk
  have hck := h k hk
  rw [getElem?_pwrite]
  split
  · exact hck
  · split
    · rw [← hck, getElem?_of_lt]
      rw [List.getElem?_eq_getElem hk] at hck
      exact (List.getElem?_eq_some_iff.1 hck).1
    · split
      · exact hag k hk (by omega) (by omega)
      · exact hck

theorem Carries.after_pwrite_disjoint {cs p : List UInt8} {off o : Nat} (h : Carries cs off p)
    {bs : List UInt8} (hd : o + bs.length ≤ off ∨ off + p.length ≤ o) :
    Carries (pwrite cs o bs) off p :=
  h.after_pwrite fun k hk h1 h2 => by omega

theorem Carries.after_setLen {cs p : List UInt8} {off n : Nat} (h : Carries cs off p)
    (hn : off + p.length ≤ n) : Carries (setLen cs n) off p := by
  intro k hk
  have hck := h k hk
  rw [getElem?_setLen, if_pos (by omega), ← hck, getElem?_of_lt]
  rw [List.getElem?_eq_getElem hk] at hck
  exact (List.getElem?_eq_some_iff.1 hck).1

/-- Writing the next piece of `p` extends what is already there. -/
theorem Carries.after_pwrite_next {cs p : List UInt8} {off done : Nat}
    (h : Carries cs off (p.take done))
    (hd : done ≤ p.length) (n : Nat) :
    Carries (pwrite cs (off + done) (slice p done n)) off (p.take (done + n)) := by
  have hsplit : p.take (done + n) = p.take done ++ slice p done n := by
    rw [slice, List.take_add]
  have hlen : (p.take done).length = done := by simp [hd]
  rw [hsplit]
  apply Carries.append
  · exact h.after_pwrite_disjoint (Or.inr (by omega))
  · rw [hlen]
    exact carries_pwrite_self _ _ _

/-! ## Little-endian numbers -/

/-- The `w` low bytes of `n`, least significant first. -/
def leBytes : Nat → Nat → List UInt8
  | 0, _ => []
  | w + 1, n => UInt8.ofNat n :: leBytes w (n / 256)

/-- The number a little-endian byte string stands for. -/
def leNat : List UInt8 → Nat
  | [] => 0
  | b :: bs => b.toNat + 256 * leNat bs

@[simp] theorem length_leBytes (w n : Nat) : (leBytes w n).length = w := by
  induction w generalizing n with
  | zero => rfl
  | succ w ih => simp [leBytes, ih]

theorem leNat_lt (bs : List UInt8) : leNat bs < 256 ^ bs.length := by
  induction bs with
  | nil => simp [leNat]
  | cons b bs ih =>
      have hb : b.toNat < 256 := b.toNat_lt
      have hpow : 256 ^ (b :: bs).length = 256 * 256 ^ bs.length := by
        rw [List.length_cons, pow_succ, Nat.mul_comm]
      rw [hpow, leNat]
      omega

theorem leNat_leBytes {w n : Nat} (h : n < 256 ^ w) : leNat (leBytes w n) = n := by
  induction w generalizing n with
  | zero =>
      simp at h
      simp [leBytes, leNat, h]
  | succ w ih =>
      have hdiv : n / 256 < 256 ^ w := by
        rw [pow_succ, Nat.mul_comm] at h
        exact Nat.div_lt_of_lt_mul h
      have hbyte : (UInt8.ofNat n).toNat = n % 256 := by simp
      rw [leBytes, leNat, ih hdiv, hbyte]
      omega

theorem leBytes_leNat (bs : List UInt8) : leBytes bs.length (leNat bs) = bs := by
  induction bs with
  | nil => rfl
  | cons b bs ih =>
      have hb : b.toNat < 256 := b.toNat_lt
      have hhead : UInt8.ofNat (b.toNat + 256 * leNat bs) = b := by
        apply UInt8.toNat_inj.1
        simp only [UInt8.toNat_ofNat']
        omega
      have htail : (b.toNat + 256 * leNat bs) / 256 = leNat bs := by omega
      rw [List.length_cons, leNat, leBytes, hhead, htail, ih]

end Bytes
