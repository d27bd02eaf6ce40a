import AetherLink.Lib.Text
import Mathlib.Data.Option.Basic

set_option autoImplicit false

/-! # Bytes in hexadecimal

A byte is rendered as two lower-case digits (`hexByte`) and read back with the number parser of the
standard library, `u8::from_str_radix`. That parser takes digits of both cases, and before them a plus
sign, so of the texts of two characters it reads more than the pairs of digits (`pairValue`). -/

namespace Hex

open Text

/-! ## Digits -/

/-- `char::to_digit(16)`. -/
def toDigit16 (c : Char) : Option Nat :=
  if 48 ≤ c.toNat ∧ c.toNat ≤ 57 then some (c.toNat - 48)
  else if 97 ≤ c.toNat ∧ c.toNat ≤ 102 then some (c.toNat - 87)
  else if 65 ≤ c.toNat ∧ c.toNat ≤ 70 then some (c.toNat - 55)
  else none

/-- A hexadecimal digit, of either case. -/
def isHexDigit (c : Char) : Bool :=
  (toDigit16 c).isSome

theorem toNat_lt_of_isHexDigit {c : Char} (h : isHexDigit c = true) : c.toNat < 128 := by
  unfold isHexDigit toDigit16 at h
  split at h
  · omega
  · split at h
    · omega
    · split at h
      · omega
      · cases h

/-- A digit is the lower-case digit of its value, in one of its cases. -/
theorem toDigit16_eq_some {c : Char} {d : Nat} (h : toDigit16 c = some d) :
    d < 16 ∧ Nat.digitChar d = c.toLower := by
  have hall : ∀ n : Fin 128, (toDigit16 (Char.ofNat n)).all (fun d =>
      d < 16 && Nat.digitChar d == (Char.ofNat n).toLower) = true := by decide
  have hlt : c.toNat < 128 := toNat_lt_of_isHexDigit (by rw [isHexDigit, h]; rfl)
  have hc := hall ⟨c.toNat, hlt⟩
  rw [Char.ofNat_toNat, h, Option.all_some, Bool.and_eq_true, decide_eq_true_eq, beq_iff_eq] at hc
  exact hc

theorem toDigit16_digitChar {d : Nat} (h : d < 16) : toDigit16 (Nat.digitChar d) = some d := by
  have hall : ∀ d : Fin 16, toDigit16 (Nat.digitChar d) = some d.1 := by decide
  exact hall ⟨d, h⟩

theorem toLower_digitChar {d : Nat} (h : d < 16) : (Nat.digitChar d).toLower = Nat.digitChar d :=
  (toDigit16_eq_some (toDigit16_digitChar h)).2.symm

/-! ## The number parser -/

/-- One digit more of a number that has to stay a `u8`. -/
def radixStep (acc : Nat) (b : UInt8) : Option Nat :=
  (toDigit16 (Char.ofNat b.toNat)).bind fun d => if acc * 16 + d < 256 then some (acc * 16 + d) else none

/-- `u8::from_str_radix` in base 16, of the bytes of a text. A plus sign before the digits is skipped;
    an empty text and a lone sign are no number. -/
def fromStrRadix16 (src : List UInt8) : Option UInt8 :=
  let digits := if src.head? = some 0x2B then src.tail else src
  if digits = [] then none
  else (digits.foldlM radixStep 0).map UInt8.ofNat

/-- The number that two characters are read as. -/
def pairValue (a b : Char) : Option Nat :=
  if a = '+' then toDigit16 b
  else (toDigit16 a).bind fun hi => (toDigit16 b).map fun lo => hi * 16 + lo

/-- The pairs that are read: two digits, or a plus sign and a digit. -/
def isPair (a b : Char) : Bool :=
  (a == '+' || isHexDigit a) && isHexDigit b

theorem isSome_pairValue (a b : Char) : (pairValue a b).isSome = isPair a b := by
  unfold pairValue isPair isHexDigit
  by_cases ha : a = '+'
  · simp [ha]
  · rw [if_neg ha]
    cases toDigit16 a <;> simp [ha]

theorem isPair_ascii {a b : Char} (h : isPair a b = true) : a.toNat < 128 ∧ b.toNat < 128 := by
  simp only [isPair, Bool.and_eq_true, Bool.or_eq_true, beq_iff_eq] at h
  refine ⟨?_, toNat_lt_of_isHexDigit h.2⟩
  rcases h.1 with rfl | ha
  · decide
  · exact toNat_lt_of_isHexDigit ha

/-- **What the parser makes of two ASCII characters.** -/
theorem fromStrRadix16_pair {a b : Char} (ha : a.toNat < 128) (hb : b.toNat < 128) :
    fromStrRadix16 [UInt8.ofNat a.toNat, UInt8.ofNat b.toNat] = (pairValue a b).map UInt8.ofNat := by
  have hchar : ∀ c : Char, c.toNat < 128 → Char.ofNat (UInt8.ofNat c.toNat).toNat = c := by
    intro c hc
    rw [UInt8.toNat_ofNat', Nat.mod_eq_of_lt (by omega), Char.ofNat_toNat]
  have hfirst : ∀ c : Char, c.toNat < 128 →
      radixStep 0 (UInt8.ofNat c.toNat) = toDigit16 c := by
    intro c hc
    rw [radixStep, hchar c hc]
    cases hd : toDigit16 c with
    | none => rfl
    | some d =>
        have hlt := (toDigit16_eq_some hd).1
        rw [Option.bind_some, Nat.zero_mul, Nat.zero_add, if_pos (by omega)]
  have hplus : UInt8.ofNat a.toNat = 0x2B ↔ a = '+' := by
    constructor
    · intro h
      have hn := congrArg UInt8.toNat h
      rw [UInt8.toNat_ofNat', Nat.mod_eq_of_lt (by omega)] at hn
      rw [← Char.ofNat_toNat a, hn]
      rfl
    · rintro rfl
      rfl
  unfold fromStrRadix16 pairValue
  simp only [List.head?_cons, Option.some.injEq, hplus, List.tail_cons]
  by_cases hsign : a = '+'
  · rw [if_pos hsign, if_pos hsign, if_neg (List.cons_ne_nil _ _), List.foldlM_cons, hfirst b hb]
    cases toDigit16 b <;> rfl
  · rw [if_neg hsign, if_neg hsign, if_neg (List.cons_ne_nil _ _), List.foldlM_cons, hfirst a ha]
    cases hhi : toDigit16 a with
    | none => rfl
    | some hi =>
        have hhilt := (toDigit16_eq_some hhi).1
        rw [Option.bind_some]
        show ([UInt8.ofNat b.toNat].foldlM radixStep hi).map UInt8.ofNat = _
        rw [List.foldlM_cons, radixStep, hchar b hb]
        cases hlo : toDigit16 b with
        | none => rfl
        | some lo =>
            have hlolt := (toDigit16_eq_some hlo).1
            rw [Option.bind_some, if_pos (by omega)]
            rfl

/-- A text that begins with a byte outside ASCII is no number. -/
theorem fromStrRadix16_of_high {b : UInt8} {bs : List UInt8} (h : 128 ≤ b.toNat) :
    fromStrRadix16 (b :: bs) = none := by
  have hdigit : toDigit16 (Char.ofNat b.toNat) = none := by
    have hvalid : b.toNat.isValidChar := Or.inl (lt_trans b.toNat_lt (by decide))
    have hcode : (Char.ofNat b.toNat).toNat = b.toNat := by
      rw [Char.ofNat, dif_pos hvalid]
      rfl
    by_contra hsome
    have hlt := toNat_lt_of_isHexDigit (Option.isSome_iff_ne_none.2 hsome)
    omega
  have hplus : ¬ b = 0x2B := by
    rintro rfl
    exact absurd h (by decide)
  unfold fromStrRadix16
  simp only [List.head?_cons, Option.some.injEq, if_neg hplus]
  rw [if_neg (List.cons_ne_nil _ _), List.foldlM_cons, radixStep, hdigit]
  rfl

/-! ## Rendering -/

/-- `{:02x}` of a byte. -/
def hexByte (b : UInt8) : List Char :=
  [Nat.digitChar (b.toNat / 16), Nat.digitChar (b.toNat % 16)]

/-- Two digits are read as a byte exactly if they are its rendering, but for the case. -/
theorem pairValue_eq_some_iff {a b : Char} (ha : isHexDigit a = true) (hb : isHexDigit b = true)
    (x : UInt8) : (pairValue a b).map UInt8.ofNat = some x ↔ [a.toLower, b.toLower] = hexByte x := by
  obtain ⟨hi, hhi⟩ := Option.isSome_iff_exists.1 ha
  obtain ⟨lo, hlo⟩ := Option.isSome_iff_exists.1 hb
  obtain ⟨hhilt, hhic⟩ := toDigit16_eq_some hhi
  obtain ⟨hlolt, hloc⟩ := toDigit16_eq_some hlo
  have hsign : ¬ a = '+' := by
    rintro rfl
    cases hhi
  have hx := x.toNat_lt
  have hinj : ∀ d e, d < 16 → e < 16 → Nat.digitChar d = Nat.digitChar e → d = e := by
    intro d e hd he h
    have hdigits := toDigit16_digitChar hd
    rw [h, toDigit16_digitChar he] at hdigits
    exact (Option.some.inj hdigits).symm
  rw [pairValue, if_neg hsign, hhi, hlo, Option.bind_some, Option.map_some, Option.map_some,
    Option.some.injEq, ← hhic, ← hloc, hexByte]
  constructor
  · rintro rfl
    rw [UInt8.toNat_ofNat', Nat.mod_eq_of_lt (by omega), show (hi * 16 + lo) / 16 = hi by omega,
      show (hi * 16 + lo) % 16 = lo by omega]
  · intro h
    obtain ⟨hfirst, hrest⟩ := List.cons.inj h
    have hdiv := hinj _ _ hhilt (by omega) hfirst
    have hmod := hinj _ _ hlolt (by omega) (List.cons.inj hrest).1
    rw [hdiv, hmod, show x.toNat / 16 * 16 + x.toNat % 16 = x.toNat by omega, UInt8.ofNat_toNat]

/-- What is rendered is digits, of the lower case. -/
theorem mem_hexByte {x : UInt8} {c : Char} (h : c ∈ hexByte x) :
    isHexDigit c = true ∧ c.toLower = c := by
  have hx := x.toNat_lt
  simp only [hexByte, List.mem_cons, List.not_mem_nil, or_false] at h
  rcases h with rfl | rfl
  · have hlt : x.toNat / 16 < 16 := by omega
    exact ⟨by rw [isHexDigit, toDigit16_digitChar hlt]; rfl, toLower_digitChar hlt⟩
  · have hlt : x.toNat % 16 < 16 := by omega
    exact ⟨by rw [isHexDigit, toDigit16_digitChar hlt]; rfl, toLower_digitChar hlt⟩

end Hex
