import AetherLink.Lib.Bytes

set_option autoImplicit false

/-! # Text addressed by byte

A text is stored as the UTF-8 bytes of its characters, one after the other, and is sliced by byte
positions. A slice is taken only between character boundaries: at the start, at the end, and wherever
the byte is not a continuation byte.

A boundary is where one character ends and the next one begins (`isCharBoundary_append`,
`not_isCharBoundary_inside`), so a slice that is taken has whole characters. -/

namespace Text

open Bytes

/-- A byte that continues a character, `10xxxxxx`. -/
def isContinuation (b : UInt8) : Bool :=
  128 ≤ b.toNat && b.toNat < 192

def isCharBoundary (bytes : List UInt8) (index : Nat) : Bool :=
  if index = 0 then true
  else match bytes[index]? with
    | none => index == bytes.length
    | some b => !isContinuation b

/-- The bytes from `start` to `stop`, where both are character boundaries. -/
def strSlice (bytes : List UInt8) (start stop : Nat) : Option (List UInt8) :=
  if start ≤ stop ∧ isCharBoundary bytes start = true ∧ isCharBoundary bytes stop = true then
    some (slice bytes start (stop - start))
  else none

/-- The bytes of a text. -/
def encode (cs : List Char) : List UInt8 :=
  cs.flatMap String.utf8EncodeChar

theorem encode_cons (c : Char) (cs : List Char) :
    encode (c :: cs) = String.utf8EncodeChar c ++ encode cs := rfl

theorem encode_append (xs ys : List Char) : encode (xs ++ ys) = encode xs ++ encode ys :=
  List.flatMap_append

theorem length_encode_cons (c : Char) (cs : List Char) :
    (encode (c :: cs)).length = c.utf8Size + (encode cs).length := by
  rw [encode_cons, List.length_append, String.length_utf8EncodeChar]

theorem length_le_encode (cs : List Char) : cs.length ≤ (encode cs).length := by
  induction cs with
  | nil => exact Nat.le_refl 0
  | cons c cs ih =>
      have := c.utf8Size_pos
      rw [length_encode_cons, List.length_cons]
      omega

theorem length_encode_le (cs : List Char) : (encode cs).length ≤ 4 * cs.length := by
  induction cs with
  | nil => exact Nat.le_refl 0
  | cons c cs ih =>
      have := c.utf8Size_le_four
      rw [length_encode_cons, List.length_cons]
      omega

/-! ## Characters -/

/-- The bytes of a character: one that begins it, and some that continue it. -/
theorem exists_utf8EncodeChar (c : Char) : ∃ b bs, String.utf8EncodeChar c = b :: bs ∧
    isContinuation b = false ∧ ∀ x ∈ bs, isContinuation x = true := by
  have hlow : ∀ n, n < 64 → isContinuation (UInt8.ofNat (n + 0x80)) = true := by
    intro n hn
    simp only [isContinuation, UInt8.toNat_ofNat', Bool.and_eq_true, decide_eq_true_eq]
    omega
  have hhigh : ∀ n, n < 128 ∨ 192 ≤ n ∧ n < 256 → isContinuation (UInt8.ofNat n) = false := by
    intro n hn
    simp only [isContinuation, UInt8.toNat_ofNat', Bool.and_eq_false_iff, decide_eq_false_iff_not]
    omega
  unfold String.utf8EncodeChar
  simp only
  split
  · exact ⟨_, _, rfl, hhigh _ (by omega), nofun⟩
  · split
    · refine ⟨_, _, rfl, hhigh _ (by omega), ?_⟩
      simp only [List.forall_mem_cons, List.not_mem_nil, false_imp_iff, implies_true, and_true]
      exact hlow _ (Nat.mod_lt _ (by decide))
    · split
      · refine ⟨_, _, rfl, hhigh _ (by omega), ?_⟩
        simp only [List.forall_mem_cons, List.not_mem_nil, false_imp_iff, implies_true, and_true]
        exact ⟨hlow _ (Nat.mod_lt _ (by decide)), hlow _ (Nat.mod_lt _ (by decide))⟩
      · refine ⟨_, _, rfl, hhigh _ (by omega), ?_⟩
        simp only [List.forall_mem_cons, List.not_mem_nil, false_imp_iff, implies_true, and_true]
        exact ⟨hlow _ (Nat.mod_lt _ (by decide)), hlow _ (Nat.mod_lt _ (by decide)),
          hlow _ (Nat.mod_lt _ (by decide))⟩

/-- A character of one byte is that byte. -/
theorem utf8EncodeChar_of_size_one {c : Char} (h : c.utf8Size = 1) :
    c.toNat < 128 ∧ String.utf8EncodeChar c = [UInt8.ofNat c.toNat] := by
  have hle : c.val ≤ 127 := Char.utf8Size_eq_one_iff.1 h
  have hlt : c.toNat ≤ 127 := UInt32.le_iff_toNat_le.1 hle
  refine ⟨by omega, ?_⟩
  unfold String.utf8EncodeChar
  exact if_pos hlt

/-- A longer character begins with a byte that is not ASCII. -/
theorem utf8EncodeChar_of_size_pos {c : Char} (h : 1 < c.utf8Size) :
    ∃ b bs, String.utf8EncodeChar c = b :: bs ∧ 128 ≤ b.toNat := by
  have hgt : ¬ c.val.toNat ≤ 127 := by
    intro hle
    have := Char.utf8Size_eq_one_iff.2 (UInt32.le_iff_toNat_le.2 hle)
    omega
  unfold String.utf8EncodeChar
  simp only
  rw [if_neg hgt]
  split
  · refine ⟨_, _, rfl, ?_⟩
    rw [UInt8.toNat_ofNat']
    omega
  · split
    · refine ⟨_, _, rfl, ?_⟩
      rw [UInt8.toNat_ofNat']
      omega
    · refine ⟨_, _, rfl, ?_⟩
      rw [UInt8.toNat_ofNat']
      omega

/-! ## Boundaries -/

/-- There is a boundary before every character, and at the end. -/
theorem isCharBoundary_append (pre : List UInt8) (cs : List Char) :
    isCharBoundary (pre ++ encode cs) pre.length = true := by
  unfold isCharBoundary
  split
  · rfl
  · cases cs with
    | nil => simp [encode]
    | cons c cs =>
        obtain ⟨b, bs, hc, hb, -⟩ := exists_utf8EncodeChar c
        rw [encode_cons, hc, List.getElem?_append_right (Nat.le_refl _), Nat.sub_self]
        simp [hb]

/-- There is none inside a character. -/
theorem not_isCharBoundary_inside (pre : List UInt8) (c : Char) (rest : List UInt8) {k : Nat}
    (hpos : 0 < k) (hlt : k < c.utf8Size) :
    isCharBoundary (pre ++ (String.utf8EncodeChar c ++ rest)) (pre.length + k) = false := by
  obtain ⟨b, bs, hc, -, hbs⟩ := exists_utf8EncodeChar c
  have hlen : bs.length + 1 = c.utf8Size := by
    rw [← String.length_utf8EncodeChar, hc, List.length_cons]
  obtain ⟨j, rfl⟩ : ∃ j, k = j + 1 := ⟨k - 1, by omega⟩
  have hj : j < bs.length := by omega
  have hbyte : (pre ++ (String.utf8EncodeChar c ++ rest))[pre.length + (j + 1)]? = some bs[j] := by
    rw [List.getElem?_append_right (by omega), Nat.add_sub_cancel_left, hc, List.cons_append,
      List.getElem?_cons_succ, List.getElem?_append_left hj, List.getElem?_eq_getElem hj]
  rw [isCharBoundary, if_neg (by omega), hbyte]
  simp [hbs _ (List.getElem_mem hj)]

/-! ## Slices -/

/-- **A slice of whole characters is taken.** -/
theorem strSlice_append (pre : List UInt8) (mid post : List Char) :
    strSlice (pre ++ encode (mid ++ post)) pre.length (pre.length + (encode mid).length)
      = some (encode mid) := by
  have hstop : isCharBoundary (pre ++ encode (mid ++ post))
      (pre.length + (encode mid).length) = true := by
    have := isCharBoundary_append (pre ++ encode mid) post
    rwa [List.length_append, List.append_assoc, ← encode_append] at this
  rw [strSlice, if_pos ⟨Nat.le_add_right _ _, isCharBoundary_append _ _, hstop⟩,
    Nat.add_sub_cancel_left, slice, List.drop_left' rfl, encode_append, List.take_left' rfl]

/-- **A slice that ends inside a character is not.** -/
theorem strSlice_inside (pre : List UInt8) (mid : List Char) (c : Char) (post : List Char) {k : Nat}
    (start : Nat) (hpos : 0 < k) (hlt : k < c.utf8Size) :
    strSlice (pre ++ encode (mid ++ c :: post)) start (pre.length + (encode mid).length + k)
      = none := by
  have hstop := not_isCharBoundary_inside (pre ++ encode mid) c (encode post) hpos hlt
  rw [List.length_append, List.append_assoc, ← encode_cons, ← encode_append] at hstop
  rw [strSlice, if_neg]
  rintro ⟨-, -, h⟩
  rw [hstop] at h
  cases h

end Text
