import AetherLink.Lib.Hex
import AetherLink.Proto.Manifest

set_option autoImplicit false

/-! # Fingerprints as text

A host shows its fingerprint as 64 hexadecimal characters, in a QR code or on the command line, and the
other side parses the text it was given before it opens a connection. The app and the command line
tool each have a `parse_fingerprint` of their own, and the two differ in their error texts only. -/

namespace AetherLink

open Text Hex

/-- `HostIdentity::fingerprint_hex`. -/
def fingerprintHex (fingerprint : Hash) : String :=
  String.ofList (fingerprint.1.flatMap hexByte)

/-- The loop over the bytes of a fingerprint, from byte `i` on, with `n` to go. `none` is the panic of
    `&hex[i * 2..i * 2 + 2]` where that does not begin and end between characters. -/
def parseBytes (bad : Nat → String) (hex : List UInt8) :
    (n i : Nat) → Option (Except String { bs : List UInt8 // bs.length = n })
  | 0, _ => some (.ok ⟨[], rfl⟩)
  | n + 1, i =>
      match strSlice hex (i * 2) (i * 2 + 2) with
      | none => none
      | some digits =>
          match fromStrRadix16 digits with
          | none => some (.error (bad (i * 2)))
          | some byte =>
              (parseBytes bad hex n (i + 1)).map fun rest =>
                rest.map fun bs => ⟨byte :: bs.1, congrArg (· + 1) bs.2⟩

/-- What the two functions have in common. The length is that of the bytes. -/
def parseWith (wrongLength : Nat → String) (bad : Nat → String) (hex : String) :
    Option (Except String Hash) :=
  let bytes := Text.encode hex.toList
  if bytes.length ≠ 64 then some (.error (wrongLength bytes.length))
  else parseBytes bad bytes 32 0

/-- `parse_fingerprint` of the app. Its error is the text of a `BadFingerprint`. -/
def Ffi.parseFingerprint (hex : String) : Option (Except String Hash) :=
  parseWith (fun len => "expected 64 hex characters, got " ++ toString len)
    (fun position => "bad hex at position " ++ toString position) hex

/-- `parse_fingerprint` of the command line tool. -/
def Cli.parseFingerprint (hex : String) : Option (Except String Hash) :=
  parseWith (fun _ => "fingerprint must be 64 hex characters")
    (fun position => "invalid hex at position " ++ toString position) hex

/-! ## One slice -/

section Loop

variable {bad : Nat → String} {hex : List UInt8} {n i : Nat}

theorem parseBytes_cut (hslice : strSlice hex (i * 2) (i * 2 + 2) = none) :
    parseBytes bad hex (n + 1) i = none := by
  rw [parseBytes, hslice]

theorem parseBytes_bad {digits : List UInt8}
    (hslice : strSlice hex (i * 2) (i * 2 + 2) = some digits)
    (hdigits : fromStrRadix16 digits = none) :
    parseBytes bad hex (n + 1) i = some (.error (bad (i * 2))) := by
  rw [parseBytes, hslice]
  simp only [hdigits]

theorem parseBytes_byte {digits : List UInt8} {byte : UInt8}
    (hslice : strSlice hex (i * 2) (i * 2 + 2) = some digits)
    (hdigits : fromStrRadix16 digits = some byte) :
    parseBytes bad hex (n + 1) i = (parseBytes bad hex n (i + 1)).map fun rest =>
      rest.map fun bs => ⟨byte :: bs.1, congrArg (· + 1) bs.2⟩ := by
  rw [parseBytes, hslice]
  simp only [hdigits]

/-- A byte that is read: its slice is taken and is a number. -/
def Reads (hex : List UInt8) (i : Nat) : Prop :=
  ∃ digits byte, strSlice hex (i * 2) (i * 2 + 2) = some digits ∧ fromStrRadix16 digits = some byte

/-- The loop panics where it comes to a slice that is not taken. -/
theorem parseBytes_ne_none_iff :
    parseBytes bad hex n i ≠ none ↔ ∀ m, i ≤ m → m < i + n → (∀ j, i ≤ j → j < m → Reads hex j) →
      strSlice hex (m * 2) (m * 2 + 2) ≠ none := by
  induction n generalizing i with
  | zero => exact iff_of_true (by rw [parseBytes]; exact Option.some_ne_none _) fun m _ _ => by omega
  | succ n ih =>
      cases hslice : strSlice hex (i * 2) (i * 2 + 2) with
      | none =>
          refine iff_of_false (fun h => h (parseBytes_cut hslice)) fun h => ?_
          exact h i (Nat.le_refl i) (by omega) (fun j _ _ => by omega) hslice
      | some digits =>
          -- the slice itself is taken, so only later ones are in question
          have hhere : strSlice hex (i * 2) (i * 2 + 2) ≠ none := by
            rw [hslice]
            exact Option.some_ne_none _
          cases hdigits : fromStrRadix16 digits with
          | none =>
              refine iff_of_true ?_ fun m hi hm hreads => ?_
              · rw [parseBytes_bad hslice hdigits]
                exact Option.some_ne_none _
              · rcases Nat.eq_or_lt_of_le hi with rfl | hlt
                · exact hhere
                · obtain ⟨digits', byte, hslice', hbyte⟩ := hreads i (Nat.le_refl i) hlt
                  rw [hslice, Option.some.injEq] at hslice'
                  rw [← hslice', hdigits] at hbyte
                  cases hbyte
          | some byte =>
              have hread : Reads hex i := ⟨digits, byte, hslice, hdigits⟩
              rw [parseBytes_byte hslice hdigits, ne_eq, Option.map_eq_none_iff, ← ne_eq, ih]
              constructor
              · intro h m hi hm hreads
                rcases Nat.eq_or_lt_of_le hi with rfl | hlt
                · exact hhere
                · exact h m hlt (by omega) fun j hj => hreads j (by omega)
              · intro h m hi hm hreads
                refine h m (by omega) (by omega) fun j hj hjm => ?_
                rcases Nat.eq_or_lt_of_le hj with rfl | hlt
                · exact hread
                · exact hreads j hlt hjm

end Loop

/-! ## Two bytes of a text -/

/-- What the next two bytes of a text are: two characters, one character, or not a slice. -/
theorem strSlice_two (pre : List UInt8) {cs : List Char} (h : 2 ≤ (encode cs).length) :
    (∃ a b rest, cs = a :: b :: rest ∧ a.utf8Size = 1 ∧ b.utf8Size = 1) ∨
    (∃ a rest, cs = a :: rest ∧ a.utf8Size = 2 ∧
      strSlice (pre ++ encode cs) pre.length (pre.length + 2) = some (encode [a])) ∨
    strSlice (pre ++ encode cs) pre.length (pre.length + 2) = none ∧
      ((∃ a rest, cs = a :: rest ∧ 3 ≤ a.utf8Size) ∨
        ∃ a b rest, cs = a :: b :: rest ∧ a.utf8Size = 1 ∧ 2 ≤ b.utf8Size) := by
  cases cs with
  | nil => simp [encode] at h
  | cons a rest =>
      have hpos := a.utf8Size_pos
      rcases show a.utf8Size = 1 ∨ a.utf8Size = 2 ∨ 3 ≤ a.utf8Size by omega with ha | ha | ha
      · have hone : (encode [a]).length = 1 := by rw [length_encode_cons, ha]; rfl
        cases rest with
        | nil => omega
        | cons b rest =>
            have hposb := b.utf8Size_pos
            rcases show b.utf8Size = 1 ∨ 2 ≤ b.utf8Size by omega with hb | hb
            · exact Or.inl ⟨a, b, rest, rfl, ha, hb⟩
            · refine Or.inr (Or.inr ⟨?_, Or.inr ⟨a, b, rest, rfl, ha, hb⟩⟩)
              have := strSlice_inside pre [a] b rest pre.length Nat.one_pos hb
              rwa [hone] at this
      · have htwo : (encode [a]).length = 2 := by rw [length_encode_cons, ha]; rfl
        refine Or.inr (Or.inl ⟨a, rest, rfl, ha, ?_⟩)
        have := strSlice_append pre [a] rest
        rwa [htwo] at this
      · refine Or.inr (Or.inr ⟨?_, Or.inl ⟨a, rest, rfl, ha⟩⟩)
        exact strSlice_inside pre [] a rest pre.length (by decide) ha

/-- Two ASCII characters are read as their number. -/
theorem fromStrRadix16_encode_pair {a b : Char} (ha : a.utf8Size = 1) (hb : b.utf8Size = 1) :
    fromStrRadix16 (encode [a, b]) = (pairValue a b).map UInt8.ofNat := by
  obtain ⟨haascii, habytes⟩ := utf8EncodeChar_of_size_one ha
  obtain ⟨hbascii, hbbytes⟩ := utf8EncodeChar_of_size_one hb
  rw [encode_cons, encode_cons, habytes, hbbytes]
  exact fromStrRadix16_pair haascii hbascii

theorem fromStrRadix16_encode_wide {a : Char} (ha : 1 < a.utf8Size) :
    fromStrRadix16 (encode [a]) = none := by
  obtain ⟨b, bs, hbytes, hhigh⟩ := utf8EncodeChar_of_size_pos ha
  rw [encode_cons, hbytes, List.cons_append]
  exact fromStrRadix16_of_high hhigh

/-- The rest of a text behind its first two characters. -/
theorem append_encode_pair (pre : List UInt8) (a b : Char) (cs : List Char) :
    pre ++ encode (a :: b :: cs) = pre ++ encode [a, b] ++ encode cs := by
  rw [List.append_assoc, ← encode_append]
  rfl

theorem length_encode_pair {a b : Char} (ha : a.utf8Size = 1) (hb : b.utf8Size = 1) :
    (encode [a, b]).length = 2 := by
  rw [length_encode_cons, length_encode_cons, ha, hb]
  rfl

section Pair

variable {bad : Nat → String} {n i : Nat} {pre : List UInt8} {a b : Char} {cs : List Char}

theorem strSlice_pair (hpre : pre.length = i * 2) (ha : a.utf8Size = 1) (hb : b.utf8Size = 1) :
    strSlice (pre ++ encode (a :: b :: cs)) (i * 2) (i * 2 + 2) = some (encode [a, b]) := by
  have htaken := strSlice_append pre [a, b] cs
  rwa [length_encode_pair ha hb, hpre] at htaken

/-- The loop stops at a pair that is no number. -/
theorem parseBytes_pair_bad (hpre : pre.length = i * 2) (ha : a.utf8Size = 1) (hb : b.utf8Size = 1)
    (hvalue : pairValue a b = none) :
    parseBytes bad (pre ++ encode (a :: b :: cs)) (n + 1) i = some (.error (bad (i * 2))) := by
  refine parseBytes_bad (strSlice_pair hpre ha hb) ?_
  rw [fromStrRadix16_encode_pair ha hb, hvalue]
  rfl

/-- It goes on behind a pair that is one. -/
theorem parseBytes_pair_byte {value : Nat} (hpre : pre.length = i * 2) (ha : a.utf8Size = 1)
    (hb : b.utf8Size = 1) (hvalue : pairValue a b = some value) :
    (pre ++ encode [a, b]).length = (i + 1) * 2 ∧
    parseBytes bad (pre ++ encode (a :: b :: cs)) (n + 1) i
      = (parseBytes bad (pre ++ encode [a, b] ++ encode cs) n (i + 1)).map fun rest =>
          rest.map fun bs => ⟨UInt8.ofNat value :: bs.1, congrArg (· + 1) bs.2⟩ := by
  constructor
  · rw [List.length_append, length_encode_pair ha hb, hpre, Nat.succ_mul]
  · rw [← append_encode_pair]
    refine parseBytes_byte (strSlice_pair hpre ha hb) ?_
    rw [fromStrRadix16_encode_pair ha hb, hvalue]
    rfl

end Pair

end AetherLink
