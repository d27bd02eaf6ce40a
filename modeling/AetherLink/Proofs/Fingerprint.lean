import AetherLink.Ffi.Fingerprint
import AetherLink.Spec.TableHash

set_option autoImplicit false

/-! # What a fingerprint parser does with a text

The length is checked in bytes and the text is then cut every two bytes, so a text of 64 bytes that is
not ASCII can be cut inside a character. Whether the loop comes to such a cut depends on what it has
read before: it stops at the first pair that is no number (`cutsCharacter`).

On ASCII every cut is between two characters, and what remains is the language of the number parser:
the pairs of digits, and with them a digit behind a plus sign. -/

namespace AetherLink

open Text Hex

variable {bad : Nat → String} {n i : Nat} {pre : List UInt8} {cs : List Char}

theorem eq_nil_of_length_encode (h : (encode cs).length = 0) : cs = [] := by
  cases cs with
  | nil => rfl
  | cons c cs =>
      have := c.utf8Size_pos
      rw [length_encode_cons] at h
      omega

theorem utf8Size_of_ascii {c : Char} (h : c.toNat < 128) : c.utf8Size = 1 :=
  Char.utf8Size_eq_one_iff.2 (UInt32.le_iff_toNat_le.2 (Nat.le_of_lt_succ h))

theorem utf8Size_of_isPair {a b : Char} (h : isPair a b = true) :
    a.utf8Size = 1 ∧ b.utf8Size = 1 := by
  obtain ⟨ha, hb⟩ := isPair_ascii h
  exact ⟨utf8Size_of_ascii ha, utf8Size_of_ascii hb⟩

/-! ## Cuts inside a character -/

/-- A text that is cut inside a character, after none but pairs that are numbers: the two bytes end
    inside the first character, or inside the second. -/
def cutsCharacter : List Char → Bool
  | [] => false
  | [a] => 3 ≤ a.utf8Size
  | a :: b :: cs =>
      3 ≤ a.utf8Size || a.utf8Size == 1 && decide (2 ≤ b.utf8Size) || isPair a b && cutsCharacter cs

theorem cutsCharacter_pair {a b : Char} (ha : a.utf8Size = 1) (hb : b.utf8Size = 1) :
    cutsCharacter (a :: b :: cs) = (isPair a b && cutsCharacter cs) := by
  simp [cutsCharacter, ha, hb]

theorem cutsCharacter_wide {a : Char} (ha : a.utf8Size = 2) : cutsCharacter (a :: cs) = false := by
  cases cs with
  | nil => simp [cutsCharacter, ha]
  | cons b cs =>
      have hpair : isPair a b = false := by
        rw [Bool.eq_false_iff]
        intro h
        have := (utf8Size_of_isPair h).1
        omega
      simp [cutsCharacter, ha, hpair]

theorem cutsCharacter_first {a : Char} (ha : 3 ≤ a.utf8Size) : cutsCharacter (a :: cs) = true := by
  cases cs <;> simp [cutsCharacter, ha]

theorem cutsCharacter_second {a b : Char} (ha : a.utf8Size = 1) (hb : 2 ≤ b.utf8Size) :
    cutsCharacter (a :: b :: cs) = true := by
  simp [cutsCharacter, ha, hb]

/-- **The loop panics on a text that cuts a character**, and on no other. -/
theorem parseBytes_eq_none_iff (hpre : pre.length = i * 2) (hlen : (encode cs).length = 2 * n) :
    parseBytes bad (pre ++ encode cs) n i = none ↔ cutsCharacter cs = true := by
  induction n generalizing i pre cs with
  | zero =>
      obtain rfl := eq_nil_of_length_encode hlen
      rw [parseBytes]
      exact iff_of_false (Option.some_ne_none _) Bool.false_ne_true
  | succ n ih =>
      rcases strSlice_two pre (by omega : 2 ≤ (encode cs).length) with
        ⟨a, b, rest, rfl, ha, hb⟩ | ⟨a, rest, rfl, ha, hslice⟩ | ⟨hslice, hcut⟩
      · rw [cutsCharacter_pair ha hb, ← isSome_pairValue]
        cases hvalue : pairValue a b with
        | none =>
            rw [parseBytes_pair_bad hpre ha hb hvalue]
            exact iff_of_false (Option.some_ne_none _) Bool.false_ne_true
        | some value =>
            obtain ⟨hnext, hgoes⟩ := parseBytes_pair_byte hpre ha hb hvalue
            rw [length_encode_cons, length_encode_cons, ha, hb] at hlen
            rw [hgoes, Option.map_eq_none_iff, Option.isSome_some, Bool.true_and]
            exact ih hnext (by omega)
      · rw [hpre] at hslice
        rw [parseBytes_bad hslice (fromStrRadix16_encode_wide (by omega)), cutsCharacter_wide ha]
        exact iff_of_false (Option.some_ne_none _) Bool.false_ne_true
      · rw [hpre] at hslice
        rw [parseBytes_cut hslice]
        refine iff_of_true rfl ?_
        rcases hcut with ⟨a, rest, rfl, ha⟩ | ⟨a, b, rest, rfl, ha, hb⟩
        · exact cutsCharacter_first ha
        · exact cutsCharacter_second ha hb

theorem parseWith_eq_none_iff {wrongLength : Nat → String} {hex : String} :
    parseWith wrongLength bad hex = none ↔
      (Text.encode hex.toList).length = 64 ∧ cutsCharacter hex.toList = true := by
  unfold parseWith
  simp only
  by_cases hlen : (Text.encode hex.toList).length = 64
  · rw [if_neg (not_not.2 hlen)]
    have hloop : parseBytes bad ([] ++ encode hex.toList) 32 0 = none ↔ _ :=
      parseBytes_eq_none_iff rfl hlen
    rw [List.nil_append] at hloop
    simp only [hlen, true_and]
    exact hloop
  · rw [if_pos hlen]
    exact iff_of_false (Option.some_ne_none _) fun h => hlen h.1

/-- Wherever the loop comes to in a text of the right length, the slice begins and ends between
    characters. -/
def SlicesWhole (hex : String) : Prop :=
  (Text.encode hex.toList).length = 64 → ∀ i, i < 32 →
    (∀ j, j < i → Reads (Text.encode hex.toList) j) →
    isCharBoundary (Text.encode hex.toList) (i * 2) = true ∧
      isCharBoundary (Text.encode hex.toList) (i * 2 + 2) = true

/-- A slice that is not taken is the only panic. -/
theorem parseWith_ne_none_iff {wrongLength : Nat → String} {hex : String} :
    parseWith wrongLength bad hex ≠ none ↔ SlicesWhole hex := by
  have htaken : ∀ bytes : List UInt8, ∀ m, strSlice bytes (m * 2) (m * 2 + 2) ≠ none ↔
      isCharBoundary bytes (m * 2) = true ∧ isCharBoundary bytes (m * 2 + 2) = true := by
    intro bytes m
    rw [strSlice]
    split
    · next h => exact iff_of_true (Option.some_ne_none _) h.2
    · next h => exact iff_of_false (fun hne => hne rfl) fun hb => h ⟨Nat.le_add_right _ _, hb⟩
  unfold parseWith SlicesWhole
  simp only
  by_cases hlen : (Text.encode hex.toList).length = 64
  · rw [if_neg (not_not.2 hlen), parseBytes_ne_none_iff]
    constructor
    · intro h _ i hi hreads
      exact (htaken _ i).1 (h i (Nat.zero_le i) (by omega) fun j _ => hreads j)
    · intro h m _ hm hreads
      exact (htaken _ m).2 (h hlen m (by omega) fun j => hreads j (Nat.zero_le j))
  · rw [if_pos hlen]
    exact iff_of_true (Option.some_ne_none _) fun h => absurd h hlen

/-- **When parsing a fingerprint does not panic.** For every text, both functions return, and take no
    slice but between characters, exactly if the text does not, in 64 bytes, have none but pairs that
    are numbers and then two bytes that end inside a character. -/
theorem parse_fingerprint_returns_iff (hex : String) :
    (Ffi.parseFingerprint hex ≠ none ∧ Cli.parseFingerprint hex ≠ none ∧ SlicesWhole hex) ↔
      ¬ ((Text.encode hex.toList).length = 64 ∧ cutsCharacter hex.toList = true) := by
  unfold Ffi.parseFingerprint Cli.parseFingerprint
  constructor
  · rintro ⟨happ, -, -⟩ hcut
    exact happ (parseWith_eq_none_iff.2 hcut)
  · intro hcut
    have hreturns : ∀ wrongLength bad, parseWith wrongLength bad hex ≠ none :=
      fun _ _ hnone => hcut (parseWith_eq_none_iff.1 hnone)
    exact ⟨hreturns _ _, hreturns _ _, parseWith_ne_none_iff.1 (hreturns (fun _ => "") fun _ => "")⟩

/-- `aé` and 61 more letters are 64 bytes, and the first slice ends inside the second character. -/
theorem parse_fingerprint_panics :
    ¬ ∀ hex, Ffi.parseFingerprint hex ≠ none ∧ Cli.parseFingerprint hex ≠ none := by
  intro hall
  refine (hall (String.ofList ('a' :: 'é' :: List.replicate 61 'a'))).1 ?_
  refine parseWith_eq_none_iff.2 ?_
  rw [String.toList_ofList]
  exact ⟨by decide +kernel, by decide⟩

/-! ## What is accepted -/

/-- A text as the bytes its pairs are read as. -/
def readPairs : List Char → Option (List UInt8)
  | [] => some []
  | [_] => none
  | a :: b :: cs =>
      ((pairValue a b).map UInt8.ofNat).bind fun byte => (readPairs cs).map fun bs => byte :: bs

/-- The texts of none but pairs that are read. -/
def allPairs : List Char → Bool
  | [] => true
  | [_] => false
  | a :: b :: cs => isPair a b && allPairs cs

/-- The texts that are read as bytes and are not hexadecimal. -/
def PlusSigned (cs : List Char) : Prop :=
  allPairs cs = true ∧ '+' ∈ cs

instance (cs : List Char) : Decidable (PlusSigned cs) :=
  inferInstanceAs (Decidable (_ ∧ _))

theorem exists_pair_of_length (h : cs.length = 2 * (n + 1)) :
    ∃ a b rest, cs = a :: b :: rest ∧ rest.length = 2 * n := by
  cases cs with
  | nil => cases h
  | cons a cs =>
      cases cs with
      | nil => simp only [List.length_cons, List.length_nil] at h; omega
      | cons b rest =>
          refine ⟨a, b, rest, rfl, ?_⟩
          simp only [List.length_cons] at h
          omega

theorem length_encode_ascii (h : ∀ c ∈ cs, c.toNat < 128) : (encode cs).length = cs.length := by
  induction cs with
  | nil => rfl
  | cons c cs ih =>
      rw [length_encode_cons, utf8Size_of_ascii (h c List.mem_cons_self),
        ih fun x hx => h x (List.mem_cons_of_mem _ hx), List.length_cons, Nat.add_comm]

/-- **On ASCII the loop reads pair after pair.** -/
theorem parseBytes_ok_iff (hpre : pre.length = i * 2) (hascii : ∀ c ∈ cs, c.toNat < 128)
    (hlen : cs.length = 2 * n) (out : { bs : List UInt8 // bs.length = n }) :
    parseBytes bad (pre ++ encode cs) n i = some (.ok out) ↔ readPairs cs = some out.1 := by
  induction n generalizing i pre cs with
  | zero =>
      obtain rfl := List.eq_nil_of_length_eq_zero hlen
      obtain ⟨bs, hbs⟩ := out
      obtain rfl := List.eq_nil_of_length_eq_zero hbs
      exact iff_of_true (by rw [parseBytes]) rfl
  | succ n ih =>
      obtain ⟨a, b, rest, rfl, hrest⟩ := exists_pair_of_length hlen
      have ha := utf8Size_of_ascii (hascii a (by simp))
      have hb := utf8Size_of_ascii (hascii b (by simp))
      rw [readPairs]
      cases hvalue : pairValue a b with
      | none =>
          rw [parseBytes_pair_bad hpre ha hb hvalue]
          exact iff_of_false (fun h => by cases h) (fun h => by cases h)
      | some value =>
          obtain ⟨hnext, hgoes⟩ := parseBytes_pair_byte hpre ha hb hvalue
          have hlater : ∀ bs, parseBytes bad (pre ++ encode [a, b] ++ encode rest) n (i + 1)
              = some (.ok bs) ↔ readPairs rest = some bs.1 :=
            ih hnext (fun c hc => hascii c (by simp [hc])) hrest
          rw [hgoes, Option.map_some, Option.bind_some, Option.map_eq_some_iff,
            Option.map_eq_some_iff]
          constructor
          · rintro ⟨result, hresult, hout⟩
            cases result with
            | error e => cases hout
            | ok bs =>
                obtain rfl := Except.ok.inj hout
                exact ⟨bs.1, (hlater bs).1 hresult, rfl⟩
          · rintro ⟨bs, hbs, hout⟩
            have hbslen : bs.length = n := by
              have := out.2
              rw [← hout, List.length_cons] at this
              omega
            exact ⟨.ok ⟨bs, hbslen⟩, (hlater ⟨bs, hbslen⟩).2 hbs,
              congrArg Except.ok (Subtype.ext hout)⟩

theorem parseWith_ok_iff {wrongLength : Nat → String} {hex : String} (hlen : hex.toList.length = 64)
    (hascii : ∀ c ∈ hex.toList, c.toNat < 128) (fingerprint : Hash) :
    parseWith wrongLength bad hex = some (.ok fingerprint) ↔
      readPairs hex.toList = some fingerprint.1 := by
  have hbytes : (Text.encode hex.toList).length = 64 := (length_encode_ascii hascii).trans hlen
  unfold parseWith
  simp only
  rw [if_neg (not_not.2 hbytes)]
  have hloop : parseBytes bad ([] ++ encode hex.toList) 32 0 = some (.ok fingerprint) ↔ _ :=
    parseBytes_ok_iff rfl hascii hlen fingerprint
  rw [List.nil_append] at hloop
  exact hloop

theorem isSome_readPairs (cs : List Char) : (readPairs cs).isSome = allPairs cs := by
  induction cs using readPairs.induct with
  | case1 => rfl
  | case2 => rfl
  | case3 a b cs ih =>
      rw [readPairs, allPairs, ← isSome_pairValue, ← ih]
      cases pairValue a b with
      | none => rfl
      | some value => rw [Option.map_some, Option.bind_some, Option.isSome_map, Option.isSome_some,
          Bool.true_and]

theorem length_of_readPairs {out : List UInt8} (hlen : cs.length = 2 * n)
    (h : readPairs cs = some out) : out.length = n := by
  induction n generalizing cs out with
  | zero =>
      obtain rfl := List.eq_nil_of_length_eq_zero hlen
      exact Option.some.inj h ▸ rfl
  | succ n ih =>
      obtain ⟨a, b, rest, rfl, hrest⟩ := exists_pair_of_length hlen
      obtain ⟨byte, -, hbytes⟩ := Option.bind_eq_some_iff.1 h
      obtain ⟨bs, hbs, rfl⟩ := Option.map_eq_some_iff.1 hbytes
      rw [List.length_cons, ih hrest hbs]

/-- Hexadecimal text is pairs that are read, and without a plus sign nothing else is. -/
theorem allPairs_iff (hlen : cs.length = 2 * n) :
    (∀ c ∈ cs, isHexDigit c = true) ↔ allPairs cs = true ∧ '+' ∉ cs := by
  have hplus : isHexDigit '+' = false := by decide
  induction n generalizing cs with
  | zero =>
      obtain rfl := List.eq_nil_of_length_eq_zero hlen
      simp [allPairs]
  | succ n ih =>
      obtain ⟨a, b, rest, rfl, hrest⟩ := exists_pair_of_length hlen
      have hnot : ∀ c : Char, isHexDigit c = true → ¬ '+' = c := by
        rintro c hc rfl
        rw [hplus] at hc
        cases hc
      have hlater : (∀ c ∈ rest, isHexDigit c = true) ↔ allPairs rest = true ∧ '+' ∉ rest :=
        ih hrest
      rw [List.forall_mem_cons, List.forall_mem_cons, hlater]
      simp only [allPairs, isPair, List.mem_cons, not_or, Bool.and_eq_true, Bool.or_eq_true,
        beq_iff_eq]
      constructor
      · rintro ⟨ha, hb, hpairs, hsign⟩
        exact ⟨⟨⟨Or.inr ha, hb⟩, hpairs⟩, hnot a ha, hnot b hb, hsign⟩
      · rintro ⟨⟨⟨ha, hb⟩, hpairs⟩, hsigna, -, hsign⟩
        exact ⟨ha.resolve_left fun h => hsigna h.symm, hb, hpairs, hsign⟩

/-- **Hexadecimal text is read as the bytes that render to it**, but for the case. -/
theorem readPairs_eq_some_iff (hlen : cs.length = 2 * n) (hhex : ∀ c ∈ cs, isHexDigit c = true)
    (out : List UInt8) : readPairs cs = some out ↔ cs.map Char.toLower = out.flatMap hexByte := by
  induction n generalizing cs out with
  | zero =>
      obtain rfl := List.eq_nil_of_length_eq_zero hlen
      cases out with
      | nil => exact iff_of_true rfl rfl
      | cons x out => exact iff_of_false (fun h => by cases h) (fun h => by cases h)
  | succ n ih =>
      obtain ⟨a, b, rest, rfl, hrest⟩ := exists_pair_of_length hlen
      have ha := hhex a (by simp)
      have hb := hhex b (by simp)
      have hlater := ih hrest fun c hc => hhex c (by simp [hc])
      rw [readPairs, Option.bind_eq_some_iff]
      cases out with
      | nil =>
          refine iff_of_false ?_ (fun h => by cases h)
          rintro ⟨byte, -, h⟩
          obtain ⟨bs, -, h⟩ := Option.map_eq_some_iff.1 h
          cases h
      | cons x out =>
          have hcons : (a :: b :: rest).map Char.toLower
              = [a.toLower, b.toLower] ++ rest.map Char.toLower := rfl
          rw [hcons, List.flatMap_cons]
          constructor
          · rintro ⟨byte, hbyte, h⟩
            obtain ⟨bs, hbs, h⟩ := Option.map_eq_some_iff.1 h
            obtain ⟨rfl, rfl⟩ := List.cons.inj h
            rw [(pairValue_eq_some_iff ha hb byte).1 hbyte, (hlater bs).1 hbs]
          · intro h
            obtain ⟨hpair, htail⟩ := List.append_inj h rfl
            exact ⟨x, (pairValue_eq_some_iff ha hb x).2 hpair,
              Option.map_eq_some_iff.2 ⟨out, (hlater out).2 htail, rfl⟩⟩

/-! ## The rendering -/

theorem length_hexText (bs : List UInt8) : (bs.flatMap hexByte).length = 2 * bs.length := by
  induction bs with
  | nil => rfl
  | cons b bs ih =>
      rw [List.flatMap_cons, List.length_append, ih, List.length_cons, hexByte]
      simp only [List.length_cons, List.length_nil]
      omega

theorem mem_hexText {bs : List UInt8} {c : Char} (h : c ∈ bs.flatMap hexByte) :
    isHexDigit c = true ∧ c.toLower = c := by
  obtain ⟨b, -, hc⟩ := List.mem_flatMap.1 h
  exact mem_hexByte hc

theorem toList_fingerprintHex (fingerprint : Hash) :
    (fingerprintHex fingerprint).toList = fingerprint.1.flatMap hexByte := by
  rw [fingerprintHex, String.toList_ofList]

/-- A rendered fingerprint parses back. -/
theorem parseWith_fingerprintHex (wrongLength : Nat → String) (bad : Nat → String)
    (fingerprint : Hash) :
    parseWith wrongLength bad (fingerprintHex fingerprint) = some (.ok fingerprint) := by
  have htext := toList_fingerprintHex fingerprint
  have hlen : (fingerprintHex fingerprint).toList.length = 64 := by
    rw [htext, length_hexText, fingerprint.2]
  have hhex : ∀ c ∈ (fingerprintHex fingerprint).toList, isHexDigit c = true := by
    rw [htext]
    exact fun c hc => (mem_hexText hc).1
  rw [parseWith_ok_iff hlen fun c hc => toNat_lt_of_isHexDigit (hhex c hc),
    readPairs_eq_some_iff (n := 32) hlen hhex, htext]
  exact (List.map_congr_left (g := id) fun c hc => (mem_hexText hc).2).trans (List.map_id _)

/-- **What a fingerprint parser accepts.** A rendered fingerprint parses back. And a text of 64 ASCII
    characters parses to just the fingerprint it is the rendering of, in digits of either case, exactly
    if it is not one of those that are pairs of digits but for some plus sign in a digit's place. -/
theorem parse_fingerprint_is_hex_iff (hex : String) :
    (∀ fingerprint, Ffi.parseFingerprint (fingerprintHex fingerprint) = some (.ok fingerprint) ∧
      Cli.parseFingerprint (fingerprintHex fingerprint) = some (.ok fingerprint)) ∧
    (hex.toList.length = 64 → (∀ c ∈ hex.toList, c.toNat < 128) →
      ((∀ fingerprint,
        (Ffi.parseFingerprint hex = some (.ok fingerprint) ↔
          (∀ c ∈ hex.toList, isHexDigit c = true) ∧
            hex.toList.map Char.toLower = (fingerprintHex fingerprint).toList) ∧
        (Cli.parseFingerprint hex = some (.ok fingerprint) ↔
          (∀ c ∈ hex.toList, isHexDigit c = true) ∧
            hex.toList.map Char.toLower = (fingerprintHex fingerprint).toList)) ↔
        ¬ PlusSigned hex.toList)) := by
  refine ⟨fun fingerprint => ⟨parseWith_fingerprintHex _ _ fingerprint,
    parseWith_fingerprintHex _ _ fingerprint⟩, fun hlen hascii => ?_⟩
  unfold Ffi.parseFingerprint Cli.parseFingerprint
  constructor
  · rintro hspec ⟨hpairs, hsign⟩
    obtain ⟨out, hout⟩ := Option.isSome_iff_exists.1 ((isSome_readPairs hex.toList).trans hpairs)
    have hbytes : out.length = 32 := length_of_readPairs hlen hout
    obtain ⟨hhex, -⟩ :=
      (hspec ⟨out, hbytes⟩).1.1 ((parseWith_ok_iff hlen hascii ⟨out, hbytes⟩).2 hout)
    exact ((allPairs_iff (n := 32) hlen).1 hhex).2 hsign
  · intro hplain fingerprint
    have hsame : readPairs hex.toList = some fingerprint.1 ↔
        (∀ c ∈ hex.toList, isHexDigit c = true) ∧
          hex.toList.map Char.toLower = (fingerprintHex fingerprint).toList := by
      rw [toList_fingerprintHex]
      constructor
      · intro hread
        have hpairs : allPairs hex.toList = true := by
          rw [← isSome_readPairs, hread]
          rfl
        have hhex := (allPairs_iff (n := 32) hlen).2 ⟨hpairs, fun hsign => hplain ⟨hpairs, hsign⟩⟩
        exact ⟨hhex, (readPairs_eq_some_iff (n := 32) hlen hhex _).1 hread⟩
      · rintro ⟨hhex, hlower⟩
        exact (readPairs_eq_some_iff (n := 32) hlen hhex _).2 hlower
    exact ⟨(parseWith_ok_iff hlen hascii fingerprint).trans hsame,
      (parseWith_ok_iff hlen hascii fingerprint).trans hsame⟩

/-- 64 times an upper-case `A`. -/
theorem parse_fingerprint_is_hex_iff_upper :
    Ffi.parseFingerprint (String.ofList (List.replicate 64 'A'))
      = some (.ok ⟨List.replicate 32 0xAA, rfl⟩) := by
  have htext : (String.ofList (List.replicate 64 'A')).toList = List.replicate 64 'A' :=
    String.toList_ofList
  have hall : ∀ c ∈ (String.ofList (List.replicate 64 'A')).toList, c = 'A' := by
    rw [htext]
    exact fun c => List.eq_of_mem_replicate
  have hsign : ¬ PlusSigned (String.ofList (List.replicate 64 'A')).toList :=
    fun h => absurd (hall '+' h.2) (by decide)
  have hspec := ((parse_fingerprint_is_hex_iff _).2 (by rw [htext]; rfl)
    fun c hc => hall c hc ▸ by decide).2 hsign
  refine (hspec _).1.2 ⟨fun c hc => hall c hc ▸ by decide, ?_⟩
  rw [htext, toList_fingerprintHex]
  decide

/-- `+f` is read as the byte 15. -/
theorem parse_fingerprint_reads_a_sign :
    ¬ ∀ (hex : String) (fingerprint : Hash), hex.toList.length = 64 →
      (∀ c ∈ hex.toList, c.toNat < 128) →
      (Ffi.parseFingerprint hex = some (.ok fingerprint) ↔
        (∀ c ∈ hex.toList, isHexDigit c = true) ∧
          hex.toList.map Char.toLower = (fingerprintHex fingerprint).toList) := by
  intro hall
  have htext : (String.ofList ('+' :: 'f' :: List.replicate 62 '0')).toList
      = '+' :: 'f' :: List.replicate 62 '0' := String.toList_ofList
  have hlen : (String.ofList ('+' :: 'f' :: List.replicate 62 '0')).toList.length = 64 := by
    rw [htext]
    rfl
  have hascii : ∀ c ∈ (String.ofList ('+' :: 'f' :: List.replicate 62 '0')).toList,
      c.toNat < 128 := by
    rw [htext, List.forall_mem_cons, List.forall_mem_cons]
    exact ⟨by decide, by decide, fun c hc => List.eq_of_mem_replicate hc ▸ by decide⟩
  obtain ⟨hhex, -⟩ := (hall _ ⟨0x0F :: List.replicate 31 0, rfl⟩ hlen hascii).1
    ((parseWith_ok_iff hlen hascii _).2 (by rw [htext]; decide))
  rw [htext] at hhex
  exact absurd (hhex '+' List.mem_cons_self) (by decide)

end AetherLink
