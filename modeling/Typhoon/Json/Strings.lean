import Typhoon.Json.Escape

/-!
# Scanned strings

`scan_string` adds valid UTF-8 to its buffer in every pass, from the bytes of the input or from a `\u` escape
(`valid_of_scanString`). It takes back what `dump_escaped` writes, character by character
(`scanString_escaped`).
-/

namespace Typhoon.Json

open Utf8

/-! ## What is added is valid -/

/-- The switch of `scan_string` asks for the ranges of UTF-8. -/
theorem byteRanges_eq {c : UInt8} (h : ¬ c ≤ 0x7F) : byteRanges c = ranges c := by
  refine forall_byte (P := fun c => ¬ c ≤ 0x7F → byteRanges c = ranges c) ?_ c h
  decide +kernel

/-- What `next_byte_in_range` adds to the bytes so far is in the ranges. -/
theorem forall₂_of_nextByteInRange {added input : List UInt8} {rs : List (UInt8 × UInt8)}
    {r : StringStep} (h : nextByteInRange added rs input = .ok r) :
    ∃ tl, r = .add (added ++ tl) r.rest ∧ List.Forall₂ InRange rs tl := by
  induction rs generalizing added input with
  | nil =>
    simp only [nextByteInRange, Except.ok.injEq] at h
    subst h
    exact ⟨[], by rw [List.append_nil]; rfl, .nil⟩
  | cons range rs ih =>
    cases input with
    | nil => cases h
    | cons c input =>
      rw [nextByteInRange] at h
      split_ifs at h with hr
      obtain ⟨tl, hadd, htl⟩ := ih h
      refine ⟨c :: tl, ?_, .cons hr htl⟩
      rw [hadd, List.append_assoc]
      rfl

/-- Bytes in the ranges are taken. -/
theorem nextByteInRange_of_forall₂ {rs : List (UInt8 × UInt8)} {tl : List UInt8}
    (h : List.Forall₂ InRange rs tl) (added rest : List UInt8) :
    nextByteInRange added rs (tl ++ rest) = .ok (.add (added ++ tl) rest) := by
  induction h generalizing added with
  | nil => rw [List.nil_append, List.append_nil, nextByteInRange]
  | @cons range c _ tl hr _ ih =>
    have hrange : range.1 ≤ c ∧ c ≤ range.2 := hr
    rw [List.cons_append, nextByteInRange, if_pos hrange, ih, List.append_assoc,
      List.singleton_append]

/-- The bits of a prefix and those of a number below it add up. -/
theorem or_eq_add {k x : ℕ} (a : ℕ) (hx : x < 2 ^ k) : a * 2 ^ k ||| x = x + a * 2 ^ k := by
  rw [← Nat.shiftLeft_eq, ← Nat.shiftLeft_add_eq_or_of_lt hx, Nat.add_comm]

/-- The bytes that are added for a code point are the character. -/
theorem codepointBytes_eq (c : Char) : codepointBytes c.val.toNat = String.utf8EncodeChar c := by
  have hcases := utf8EncodeChar_cases c
  generalize c.val.toNat = v at hcases
  have hand : ∀ x, x &&& 0x3F = x % 64 := fun x => Nat.and_two_pow_sub_one_eq_mod x 6
  have htail : ∀ x, 0x80 ||| x % 64 = x % 64 + 0x80 := fun x => or_eq_add (k := 6) 2 (by omega)
  unfold codepointBytes
  simp only [hand, htail, Nat.shiftRight_eq_div_pow, Nat.reducePow]
  rcases hcases with ⟨h, he⟩ | ⟨h, h', he⟩ | ⟨h, h', he⟩ | ⟨h, h', he⟩
  · rw [he, if_pos h]
  · have hlead : 0xC0 ||| v / 64 = v / 64 + 0xC0 := or_eq_add (k := 6) 3 (by omega)
    rw [he, if_neg (by omega), if_pos (by omega), hlead]
  · have hlead : 0xE0 ||| v / 4096 = v / 4096 + 0xE0 := or_eq_add (k := 5) 7 (by omega)
    rw [he, if_neg (by omega), if_neg (by omega), if_pos (by omega), hlead]
  · have hlead : 0xF0 ||| v / 262144 = v / 262144 + 0xF0 := or_eq_add (k := 4) 15 (by omega)
    rw [he, if_neg (by omega), if_neg (by omega), if_neg (by omega), hlead]

/-- What is added for a scalar value is valid. -/
theorem valid_codepointBytes {v : ℕ} (hv : v < 0xD800 ∨ 0xDFFF < v ∧ v < 0x110000) :
    Valid (codepointBytes v) := by
  obtain ⟨c, rfl⟩ := exists_char hv
  rw [codepointBytes_eq]
  exact (encoded_utf8EncodeChar c).valid

/-- A byte of ASCII is valid. -/
theorem valid_ascii {b : UInt8} (hb : b.toNat < 0x80) : Valid [b] := by
  have hchar : Encoded [b] := ⟨b, [], [], rfl, ranges_eq_some.2 (.inl ⟨hb, rfl⟩), .nil⟩
  exact hchar.valid

/-- A hexadecimal digit is below 16. -/
theorem hexValue_lt {c : UInt8} {d : ℕ} (h : hexValue c = some d) : d < 16 := by
  exact forall_byte (P := fun c => ∀ d ∈ hexValue c, d < 16) (by decide +kernel) c d h

/-- The digits of a code point add at most 15, shifted by each factor. -/
theorem codepointLoop_le {factors : List ℕ} {codepoint n : ℕ} {input rest : List UInt8}
    (h : codepointLoop factors codepoint input = some (n, rest)) :
    n ≤ codepoint + (factors.map (15 <<< ·)).sum := by
  induction factors generalizing codepoint input with
  | nil =>
    simp only [codepointLoop, Option.some.injEq, Prod.mk.injEq] at h
    rw [h.1]
    exact Nat.le_add_right _ _
  | cons factor factors ih =>
    cases input with
    | nil => simp [codepointLoop] at h
    | cons c input =>
      rw [codepointLoop] at h
      split at h
      · rename_i d hd
        have hdigit : d <<< factor ≤ 15 <<< factor := by
          rw [Nat.shiftLeft_eq, Nat.shiftLeft_eq]
          exact Nat.mul_le_mul_right _ (Nat.le_of_lt_succ (hexValue_lt hd))
        calc n ≤ codepoint + d <<< factor + (factors.map (15 <<< ·)).sum := ih h
          _ ≤ codepoint + 15 <<< factor + (factors.map (15 <<< ·)).sum := by omega
          _ = codepoint + ((factor :: factors).map (15 <<< ·)).sum := by
            rw [List.map_cons, List.sum_cons, Nat.add_assoc]
      · cases h

/-- A code point has 16 bits. -/
theorem getCodepoint_lt {input rest : List UInt8} {codepoint : ℕ}
    (h : getCodepoint input = some (codepoint, rest)) : codepoint < 0x10000 :=
  Nat.lt_succ_of_le (codepointLoop_le h)

/-- A surrogate pair adds a character. -/
theorem valid_of_scanLowSurrogate {codepoint1 : ℕ} (hlow : 0xD800 ≤ codepoint1)
    (hhigh : codepoint1 ≤ 0xDBFF) {input bytes rest : List UInt8}
    (h : scanLowSurrogate codepoint1 input = .ok (.add bytes rest)) : Valid bytes := by
  match input with
  | [] => simp [scanLowSurrogate] at h
  | [_] => simp [scanLowSurrogate] at h
  | c :: d :: input =>
    rw [scanLowSurrogate] at h
    split_ifs at h
    split at h
    · cases h
    · split_ifs at h with hpair
      simp only [Except.ok.injEq, StringStep.add.injEq] at h
      rw [← h.1]
      refine valid_codepointBytes (.inr ?_)
      rw [Nat.shiftLeft_eq]
      omega

/-- A `\u` adds a character. -/
theorem valid_of_scanUnicode {input bytes rest : List UInt8}
    (h : scanUnicode input = .ok (.add bytes rest)) : Valid bytes := by
  rw [scanUnicode] at h
  split at h
  · cases h
  · rename_i codepoint1 rest hcp
    have hlt := getCodepoint_lt hcp
    split_ifs at h with hhigh hlow
    · exact valid_of_scanLowSurrogate hhigh.1 hhigh.2 h
    · cases h
      exact valid_codepointBytes (by omega)

/-- An escape adds a character. -/
theorem valid_of_scanEscape {input bytes rest : List UInt8}
    (h : scanEscape input = .ok (.add bytes rest)) : Valid bytes := by
  cases input with
  | nil => cases h
  | cons c input =>
    rw [scanEscape] at h
    split_ifs at h
    all_goals first
      | exact valid_of_scanUnicode h
      | (cases h; exact valid_ascii (by decide))

/-- A pass adds a character. -/
theorem valid_of_stringStep {input bytes rest : List UInt8}
    (h : stringStep input = .ok (.add bytes rest)) : Valid bytes := by
  cases input with
  | nil => cases h
  | cons c input =>
    rw [stringStep] at h
    split_ifs at h with h1 h2 h3 h4
    · cases h
    · exact valid_of_scanEscape h
    · cases h
      exact valid_ascii (Nat.lt_succ_of_le h4)
    · rw [byteRanges_eq h4] at h
      split at h
      · rename_i rs hrs
        obtain ⟨tl, hadd, htl⟩ := forall₂_of_nextByteInRange h
        cases hadd
        have hchar : Encoded (c :: tl) := ⟨c, rs, tl, rfl, hrs, htl⟩
        exact hchar.valid
      · cases h

/-- A scanned string is valid. -/
theorem valid_of_scanString {tokenBuffer input s rest : List UInt8} (hbuffer : Valid tokenBuffer)
    (h : scanString tokenBuffer input = .ok (s, rest)) : Valid s := by
  fun_induction scanString tokenBuffer input with
  | case1 => cases h
  | case2 => cases h; exact hbuffer
  | case3 tokenBuffer input bytes rest' hstep hlt ih =>
    exact ih (hbuffer.append (valid_of_stringStep hstep)) h

/-- A scanned string leaves fewer bytes. -/
theorem length_of_scanString {tokenBuffer input s rest : List UInt8}
    (h : scanString tokenBuffer input = .ok (s, rest)) : rest.length < input.length := by
  fun_induction scanString tokenBuffer input with
  | case1 => cases h
  | case2 tokenBuffer input rest' hstep =>
    cases h
    exact stringStep_length hstep
  | case3 tokenBuffer input bytes rest' hstep hlt ih => exact (ih h).trans hlt

/-! ## What is written is taken back -/

/-- A hexadecimal digit is taken back. -/
theorem hexValue_hexDigit {d : ℕ} (hd : d < 16) : hexValue (hexDigit d) = some d := by
  revert d
  decide

/-- A number of 16 bits is read back from its four hexadecimal digits. -/
theorem getCodepoint_hexDigits {n : ℕ} (hn : n < 0x10000) (rest : List UInt8) :
    getCodepoint (hexDigit (n / 4096 % 16) :: hexDigit (n / 256 % 16) :: hexDigit (n / 16 % 16) ::
      hexDigit (n % 16) :: rest) = some (n, rest) := by
  have hdigit : ∀ m, hexValue (hexDigit (m % 16)) = some (m % 16) :=
    fun m => hexValue_hexDigit (Nat.mod_lt _ (by decide))
  simp only [getCodepoint, codepointLoop, hdigit, Nat.shiftLeft_eq, Option.some.injEq, Prod.mk.injEq,
    and_true]
  omega

/-- A character of ASCII is one byte. -/
theorem utf8EncodeChar_ascii {c : Char} (h : c.val.toNat < 0x80) :
    String.utf8EncodeChar c = [UInt8.ofNat c.val.toNat] := by
  rcases utf8EncodeChar_cases c with ⟨-, he⟩ | ⟨hge, -⟩ | ⟨hge, -⟩ | ⟨hge, -⟩
  · exact he
  all_goals omega

/-- An escaped control character is taken back. -/
theorem scanUnicode_hexDigits {c : Char} (h : c.val.toNat < 0x80) (rest : List UInt8) :
    scanUnicode (hexDigit (c.val.toNat / 4096 % 16) :: hexDigit (c.val.toNat / 256 % 16) ::
      hexDigit (c.val.toNat / 16 % 16) :: hexDigit (c.val.toNat % 16) :: rest) =
      .ok (.add (String.utf8EncodeChar c) rest) := by
  rw [scanUnicode, getCodepoint_hexDigits (by omega)]
  show (if 0xD800 ≤ c.val.toNat ∧ c.val.toNat ≤ 0xDBFF then _
    else if 0xDC00 ≤ c.val.toNat ∧ c.val.toNat ≤ 0xDFFF then _ else _) = _
  rw [if_neg (by omega), if_neg (by omega), codepointBytes_eq]

/-- A byte of ASCII that needs no escape is taken. -/
theorem stringStep_ascii {b : UInt8} (hlow : 0x1F < b.toNat) (hhigh : b.toNat < 0x80)
    (hquote : b ≠ '"'.toUInt8) (hbackslash : b ≠ '\\'.toUInt8) (rest : List UInt8) :
    stringStep (b :: rest) = .ok (.add [b] rest) := by
  have h1 : ¬ b ≤ 0x1F := by
    rw [UInt8.le_iff_toNat_le]
    exact Nat.not_le.2 hlow
  have h2 : b ≤ 0x7F := UInt8.le_iff_toNat_le.2 (Nat.le_of_lt_succ hhigh)
  rw [stringStep, if_neg hquote, if_neg hbackslash, if_neg h1, if_pos h2]

/-- The bytes of a character past ASCII are taken. -/
theorem stringStep_encoded {bytes : List UInt8} (h : Encoded bytes) (hne : 2 ≤ bytes.length)
    (rest : List UInt8) : stringStep (bytes ++ rest) = .ok (.add bytes rest) := by
  obtain ⟨b, rs, tl, rfl, hrs, htl⟩ := h
  have hb : ¬ b.toNat < 0x80 := by
    intro hb
    rcases ranges_eq_some.1 hrs with ⟨-, rfl⟩ | ⟨h, -⟩ | ⟨h, -⟩ | ⟨h, -⟩ | ⟨h, -⟩ | ⟨h, -⟩ | ⟨h, -⟩ |
      ⟨h, -⟩
    · cases htl
      exact absurd hne (Nat.not_le.2 (Nat.lt_succ_self 1))
    all_goals omega
  have hgt : ∀ n : UInt8, n.toNat < 0x80 → b ≠ n ∧ ¬ b ≤ n := by
    intro n hn
    rw [UInt8.le_iff_toNat_le]
    refine ⟨?_, by omega⟩
    rintro rfl
    exact hb hn
  have hseven := (hgt 0x7F (by decide)).2
  rw [List.cons_append, stringStep, if_neg (hgt _ (by decide)).1, if_neg (hgt _ (by decide)).1,
    if_neg (hgt _ (by decide)).2, if_neg hseven, byteRanges_eq hseven, hrs]
  exact nextByteInRange_of_forall₂ htl [b] rest

/-- What is written for a character is taken back as the character. -/
theorem stringStep_escapeChar (c : Char) (rest : List UInt8) :
    stringStep (escapeChar c ++ rest) = .ok (.add (String.utf8EncodeChar c) rest) := by
  by_cases hascii : c.val.toNat < 0x80
  · have hbytes := utf8EncodeChar_ascii hascii
    rw [escapeChar, if_pos hascii]
    have hval : ∀ n : UInt32, c.val = n →
        String.utf8EncodeChar c = [UInt8.ofNat n.toNat] := by
      rintro n rfl
      exact hbytes
    unfold escapeBytes
    split_ifs with h1 h2 h3 h4 h5 h6 h7 h8
    · rw [hval _ h1]
      rfl
    · rw [hval _ h2]
      rfl
    · rw [hval _ h3]
      rfl
    · rw [hval _ h4]
      rfl
    · rw [hval _ h5]
      rfl
    · rw [hval _ h6]
      rfl
    · rw [hval _ h7]
      rfl
    · exact scanUnicode_hexDigits hascii rest
    · have hb : (UInt8.ofNat c.val.toNat).toNat = c.val.toNat := toNat_ofNat (by omega)
      rw [hbytes]
      refine stringStep_ascii ?_ (by rw [hb]; exact hascii) ?_ ?_ rest
      · rw [hb]
        rw [UInt32.le_iff_toNat_le] at h8
        exact Nat.not_le.1 h8
      · intro h
        exact h6 (UInt32.toNat_inj.1 (hb.symm.trans (congrArg UInt8.toNat h)))
      · intro h
        exact h7 (UInt32.toNat_inj.1 (hb.symm.trans (congrArg UInt8.toNat h)))
  · rw [escapeChar, if_neg hascii]
    refine stringStep_encoded (encoded_utf8EncodeChar c) ?_ rest
    rcases utf8EncodeChar_cases c with ⟨h, -⟩ | ⟨-, -, he⟩ | ⟨-, -, he⟩ | ⟨-, -, he⟩
    · exact absurd h hascii
    all_goals
      rw [he]
      simp

/-- The pass that meets the closing quote is the last one. -/
theorem scanString_closingQuote {input rest : List UInt8} (tokenBuffer : List UInt8)
    (h : stringStep input = .ok (.closingQuote rest)) :
    scanString tokenBuffer input = .ok (tokenBuffer, rest) := by
  rw [scanString]
  split <;> simp_all

/-- A pass that adds bytes is followed by another one. -/
theorem scanString_add {input bytes rest : List UInt8} (tokenBuffer : List UInt8)
    (h : stringStep input = .ok (.add bytes rest)) :
    scanString tokenBuffer input = scanString (tokenBuffer ++ bytes) rest := by
  rw [scanString]
  split <;> simp_all

/-- A string is taken back up to its closing quote. -/
theorem scanString_escaped (cs : List Char) (tokenBuffer rest : List UInt8) :
    scanString tokenBuffer (cs.flatMap escapeChar ++ '"'.toUInt8 :: rest) =
      .ok (tokenBuffer ++ encode cs, rest) := by
  induction cs generalizing tokenBuffer with
  | nil =>
    rw [List.flatMap_nil, encode_nil, List.append_nil]
    exact scanString_closingQuote tokenBuffer rfl
  | cons c cs ih =>
    rw [List.flatMap_cons, List.append_assoc,
      scanString_add tokenBuffer (stringStep_escapeChar c _), ih, encode_cons, List.append_assoc]

end Typhoon.Json
