import AetherLink.Core.Control
import AetherLink.Proto.Frame
import AetherLink.Proto.Manifest
import Mathlib.Data.Nat.Log

set_option autoImplicit false

/-! # Abort messages

`abort` tells the peer in words why the session is dropped, and ignores it if the message cannot be
written. On a connection that works `write_control` refuses a message for its length only, so what
matters of the words is how long they are. -/

namespace AetherLink

/-! ## Words -/

/-- `str::len`. -/
def textLength (s : String) : Nat :=
  (Text.encode s.toList).length

/-- A character as `Debug` shows it in a string. `escaped` is for the characters the Unicode tables of
    the standard library call grapheme extenders or not printable. -/
def debugChar (escaped : Char → Bool) (c : Char) : List Char :=
  if c = '\x00' then ['\\', '0']
  else if c = '\t' then ['\\', 't']
  else if c = '\r' then ['\\', 'r']
  else if c = '\n' then ['\\', 'n']
  else if c = '\\' then ['\\', '\\']
  else if c = '\x22' then ['\\', '\x22']
  else if escaped c then ['\\', 'u', '\x7b'] ++ Nat.toDigits 16 c.toNat ++ ['\x7d']
  else [c]

/-- `{:?}` of a string. -/
def debugStr (escaped : Char → Bool) (s : String) : String :=
  String.ofList ('\x22' :: s.toList.flatMap (debugChar escaped) ++ ['\x22'])

/-- The words of an `Abort` over this error: of a path what the error says, of a `Protocol` its
    message. There is none over any other. -/
def Error.reason (escaped : Char → Bool) : Error → String
  | .wire (.unsafePath path why) => "unsafe path " ++ debugStr escaped path ++ ": " ++ why
  | .protocol message => message
  | _ => ""

/-! ## Lengths on the wire -/

/-- The bytes of a varint. -/
def varintLength (n : Nat) : Nat :=
  Nat.log 128 n + 1

/-- The bytes of a field with `n` bytes of contents: its tag, its length and the contents. -/
def fieldLength (n : Nat) : Nat :=
  1 + varintLength n + n

/-- The payload of an `Abort` with a reason of `n` bytes. An empty field is left out. -/
def abortLength (n : Nat) : Nat :=
  fieldLength (if n = 0 then 0 else fieldLength n)

/-- Whether `write_control` takes an `Abort` over this error, on a connection that works. -/
def Error.abortFits (escaped : Char → Bool) (e : Error) : Bool :=
  abortLength (textLength (e.reason escaped)) ≤ MAX_FRAME_PAYLOAD

theorem abortLength_le_iff {n : Nat} : abortLength n ≤ MAX_FRAME_PAYLOAD ↔ n ≤ 8388598 := by
  have hmax : MAX_FRAME_PAYLOAD = 8388608 := by decide
  have hshort : ∀ m, m < 268435456 → varintLength m ≤ 4 := fun m hm =>
    Nat.succ_le_of_lt (Nat.log_lt_of_lt_pow' (by decide) hm)
  have hlong : ∀ m, 2097152 ≤ m → 4 ≤ varintLength m := fun m hm =>
    Nat.succ_le_succ (Nat.le_log_of_pow_le (by decide) hm)
  rw [hmax, abortLength]
  by_cases hzero : n = 0
  · subst hzero
    exact iff_of_true (by decide) (by decide)
  · rw [if_neg hzero]
    unfold fieldLength
    constructor
    · intro hle
      by_contra hgt
      have hinner := hlong n (by omega)
      have houter := hlong (1 + varintLength n + n) (by omega)
      omega
    · intro hle
      have hinner := hshort n (by omega)
      have houter := hshort (1 + varintLength n + n) (by omega)
      omega

/-! ## Lengths of words -/

theorem textLength_append (s t : String) : textLength (s ++ t) = textLength s + textLength t := by
  rw [textLength, String.toList_append, Text.encode_append, List.length_append]
  rfl

theorem length_debugChar_le (escaped : Char → Bool) (c : Char) :
    (debugChar escaped c).length ≤ 12 := by
  have hdigits : (Nat.toDigits 16 c.toNat).length ≤ 8 :=
    (Nat.length_toDigits_le_iff (by decide) (by decide)).2 c.val.toNat_lt
  unfold debugChar
  repeat' split
  all_goals simp
  omega

/-- Quoting makes a text longer by a bounded factor. -/
theorem textLength_debugStr_le (escaped : Char → Bool) (s : String) :
    textLength (debugStr escaped s) ≤ 48 * textLength s + 8 := by
  have hflat : ∀ cs : List Char, (cs.flatMap (debugChar escaped)).length ≤ 12 * cs.length := by
    intro cs
    induction cs with
    | nil => exact Nat.le_refl 0
    | cons c cs ih =>
        have hone := length_debugChar_le escaped c
        rw [List.flatMap_cons, List.length_append, List.length_cons]
        omega
  have hescaped := hflat s.toList
  have hchars := Text.length_le_encode s.toList
  have hbytes := Text.length_encode_le ('\x22' :: s.toList.flatMap (debugChar escaped) ++ ['\x22'])
  rw [textLength, debugStr, String.toList_ofList]
  simp only [List.length_append, List.length_cons, List.length_nil] at hbytes
  rw [textLength]
  omega

theorem textLength_repr_le {n : Nat} (h : n < 18446744073709551616) :
    textLength (toString n) ≤ 80 := by
  have hdigits : (Nat.toDigits 10 n).length ≤ 20 :=
    (Nat.length_toDigits_le_iff (by decide) (by decide)).2 (Nat.lt_trans h (by decide))
  have hbytes := Text.length_encode_le (toString n).toList
  have hrepr : (toString n).toList = Nat.toDigits 10 n := by
    simp [toString, Nat.repr]
  rw [hrepr] at hbytes
  rw [textLength, hrepr]
  omega

end AetherLink
