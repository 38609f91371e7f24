import Mathlib.Data.List.Flatten
import Mathlib.Data.List.Forall2
import Mathlib.Tactic.Common

/-!
# UTF-8

A byte string is valid UTF-8 when it is the encoding of a list of characters (`Valid`). A decoder sees
this byte by byte: the first byte of a character tells the ranges that the bytes after it must lie in
(`ranges`). `encoded_iff` says that the two agree, and `scalar_utf8EncodeChar` that the payload bits of
the bytes make up the character. `scan` goes through a byte string in this way, `scan_eq_nil_iff` and
`scan_isSome_iff` say when it comes to the end.
-/

namespace Utf8

/-- The encoding of a list of characters. -/
def encode (cs : List Char) : List UInt8 := cs.flatMap String.utf8EncodeChar

/-- No characters are encoded as no bytes. -/
@[simp] theorem encode_nil : encode [] = [] := rfl

/-- Characters are encoded one after the other. -/
@[simp] theorem encode_cons (c : Char) (cs : List Char) :
    encode (c :: cs) = String.utf8EncodeChar c ++ encode cs := rfl

/-- Bytes that are the encoding of a list of characters. -/
def Valid (bytes : List UInt8) : Prop := ∃ cs : List Char, bytes = encode cs

/-- A byte in a range, both ends included. -/
def InRange (r : UInt8 × UInt8) (b : UInt8) : Prop := r.1 ≤ b ∧ b ≤ r.2

/-- A byte is compared with both ends. -/
instance (r : UInt8 × UInt8) (b : UInt8) : Decidable (InRange r b) := inferInstanceAs (Decidable (_ ∧ _))

/-- The range of a continuation byte. -/
abbrev tail : UInt8 × UInt8 := (0x80, 0xBF)

/-- The ranges of the bytes after the first one of a character, `none` if no character starts with it.
The narrower ranges keep out overlong encodings, surrogates and what is past the last character. -/
def ranges (b : UInt8) : Option (List (UInt8 × UInt8)) :=
  if b ≤ 0x7F then some []
  else if b ≤ 0xC1 then none
  else if b ≤ 0xDF then some [tail]
  else if b = 0xE0 then some [(0xA0, 0xBF), tail]
  else if b = 0xED then some [(0x80, 0x9F), tail]
  else if b ≤ 0xEF then some [tail, tail]
  else if b = 0xF0 then some [(0x90, 0xBF), tail, tail]
  else if b ≤ 0xF3 then some [tail, tail, tail]
  else if b = 0xF4 then some [(0x80, 0x8F), tail, tail]
  else none

/-- A first byte, and bytes in the ranges that it asks for. -/
def Encoded (bytes : List UInt8) : Prop :=
  ∃ b rs tl, bytes = b :: tl ∧ ranges b = some rs ∧ List.Forall₂ InRange rs tl

/-- The payload of a first byte. -/
def payload (b : UInt8) : ℕ :=
  if b ≤ 0x7F then b.toNat
  else if b ≤ 0xDF then b.toNat - 0xC0
  else if b ≤ 0xEF then b.toNat - 0xE0
  else b.toNat - 0xF0

/-- The payloads of the bytes of a character, six bits from each after the first. -/
def scalar : List UInt8 → ℕ
  | [] => 0
  | b :: tl => tl.foldl (fun n c => n * 64 + c.toNat % 64) (payload b)

/-! ## The encoding of a character -/

/-- A scalar value is no surrogate, and not past the last character. -/
theorem toNat_val_valid (c : Char) :
    c.val.toNat < 0xD800 ∨ 0xDFFF < c.val.toNat ∧ c.val.toNat < 0x110000 := c.valid

/-- A character is encoded in one to four bytes, by its code point. -/
theorem utf8EncodeChar_cases (c : Char) :
    (c.val.toNat < 0x80 ∧ String.utf8EncodeChar c = [UInt8.ofNat c.val.toNat]) ∨
    (0x80 ≤ c.val.toNat ∧ c.val.toNat < 0x800 ∧ String.utf8EncodeChar c =
      [UInt8.ofNat (c.val.toNat / 64 + 0xC0), UInt8.ofNat (c.val.toNat % 64 + 0x80)]) ∨
    (0x800 ≤ c.val.toNat ∧ c.val.toNat < 0x10000 ∧ String.utf8EncodeChar c =
      [UInt8.ofNat (c.val.toNat / 4096 + 0xE0), UInt8.ofNat (c.val.toNat / 64 % 64 + 0x80),
        UInt8.ofNat (c.val.toNat % 64 + 0x80)]) ∨
    (0x10000 ≤ c.val.toNat ∧ c.val.toNat < 0x110000 ∧ String.utf8EncodeChar c =
      [UInt8.ofNat (c.val.toNat / 262144 + 0xF0), UInt8.ofNat (c.val.toNat / 4096 % 64 + 0x80),
        UInt8.ofNat (c.val.toNat / 64 % 64 + 0x80), UInt8.ofNat (c.val.toNat % 64 + 0x80)]) := by
  have hc := toNat_val_valid c
  unfold String.utf8EncodeChar
  generalize c.val.toNat = v at hc
  dsimp only
  split_ifs with h1 h2 h3
  · exact .inl ⟨by omega, rfl⟩
  · exact .inr (.inl ⟨by omega, by omega, by rw [Nat.mod_eq_of_lt (show v / 64 < 0x20 by omega)]⟩)
  · exact .inr (.inr (.inl ⟨by omega, by omega,
      by rw [Nat.mod_eq_of_lt (show v / 4096 < 0x10 by omega)]⟩))
  · exact .inr (.inr (.inr ⟨by omega, by omega,
      by rw [Nat.mod_eq_of_lt (show v / 262144 < 0x08 by omega)]⟩))

/-! ## Ranges -/

/-- A byte is in a range when its number is. -/
theorem inRange_iff (r : UInt8 × UInt8) (b : UInt8) :
    InRange r b ↔ r.1.toNat ≤ b.toNat ∧ b.toNat ≤ r.2.toNat := Iff.rfl

/-- The first bytes of characters and the ranges of the bytes after them are those of the table of Unicode. -/
theorem ranges_eq_some {b : UInt8} {rs : List (UInt8 × UInt8)} :
    ranges b = some rs ↔
      (b.toNat < 0x80 ∧ rs = []) ∨
      (0xC2 ≤ b.toNat ∧ b.toNat < 0xE0 ∧ rs = [tail]) ∨
      (b.toNat = 0xE0 ∧ rs = [(0xA0, 0xBF), tail]) ∨
      (b.toNat = 0xED ∧ rs = [(0x80, 0x9F), tail]) ∨
      (0xE1 ≤ b.toNat ∧ b.toNat < 0xF0 ∧ b.toNat ≠ 0xED ∧ rs = [tail, tail]) ∨
      (b.toNat = 0xF0 ∧ rs = [(0x90, 0xBF), tail, tail]) ∨
      (0xF1 ≤ b.toNat ∧ b.toNat < 0xF4 ∧ rs = [tail, tail, tail]) ∨
      (b.toNat = 0xF4 ∧ rs = [(0x80, 0x8F), tail, tail]) := by
  have hle : ∀ n : UInt8, b ≤ n ↔ b.toNat ≤ n.toNat := fun n => Iff.rfl
  have heq : ∀ n : UInt8, b = n ↔ b.toNat = n.toNat := fun n => UInt8.toNat_inj.symm
  simp only [ranges, hle, heq, UInt8.reduceToNat]
  split_ifs <;> simp only [Option.some.injEq, false_iff, eq_comm (b := rs)] <;> grind

/-- The bytes that `ofNat` takes as they are. -/
theorem toNat_ofNat {n : ℕ} (h : n < 256) : (UInt8.ofNat n).toNat = n := by
  rw [UInt8.toNat_ofNat', Nat.mod_eq_of_lt h]

/-- Six bits make a continuation byte. -/
theorem inRange_tail (n : ℕ) : InRange tail (UInt8.ofNat (n % 64 + 0x80)) := by
  rw [inRange_iff, toNat_ofNat (by omega)]
  exact ⟨Nat.le_add_left _ _, show n % 64 + 0x80 ≤ 0xBF by omega⟩

/-- Every character is encoded as the ranges ask for. -/
theorem encoded_utf8EncodeChar (c : Char) : Encoded (String.utf8EncodeChar c) := by
  have hc := toNat_val_valid c
  have hcases := utf8EncodeChar_cases c
  generalize c.val.toNat = v at hc hcases
  rcases hcases with ⟨h, he⟩ | ⟨h, h', he⟩ | ⟨h, h', he⟩ | ⟨h, h', he⟩ <;> rw [he]
  · refine ⟨_, [], _, rfl, ranges_eq_some.2 (.inl ⟨?_, rfl⟩), .nil⟩
    rw [toNat_ofNat (by omega)]
    exact h
  · have hb : (UInt8.ofNat (v / 64 + 0xC0)).toNat = v / 64 + 0xC0 := toNat_ofNat (by omega)
    exact ⟨_, [tail], _, rfl, ranges_eq_some.2 (by rw [hb]; grind), .cons (inRange_tail v) .nil⟩
  · have hb : (UInt8.ofNat (v / 4096 + 0xE0)).toNat = v / 4096 + 0xE0 := toNat_ofNat (by omega)
    have hc1 : (UInt8.ofNat (v / 64 % 64 + 0x80)).toNat = v / 64 % 64 + 0x80 := toNat_ofNat (by omega)
    have hend := List.Forall₂.cons (inRange_tail v) .nil
    -- The first and the last of the ranges leave out overlong encodings and surrogates.
    rcases Nat.eq_zero_or_pos (v / 4096) with h0 | h0
    · refine ⟨_, [(0xA0, 0xBF), tail], _, rfl, ranges_eq_some.2 (by rw [hb]; grind), .cons ?_ hend⟩
      rw [inRange_iff, hc1]
      exact ⟨show 0xA0 ≤ _ by omega, show _ ≤ 0xBF by omega⟩
    by_cases hD : v / 4096 = 0xD
    · refine ⟨_, [(0x80, 0x9F), tail], _, rfl, ranges_eq_some.2 (by rw [hb]; grind), .cons ?_ hend⟩
      rw [inRange_iff, hc1]
      exact ⟨show 0x80 ≤ _ by omega, show _ ≤ 0x9F by omega⟩
    · exact ⟨_, [tail, tail], _, rfl, ranges_eq_some.2 (by rw [hb]; grind),
        .cons (inRange_tail _) hend⟩
  · have hb : (UInt8.ofNat (v / 262144 + 0xF0)).toNat = v / 262144 + 0xF0 := toNat_ofNat (by omega)
    have hc1 : (UInt8.ofNat (v / 4096 % 64 + 0x80)).toNat = v / 4096 % 64 + 0x80 :=
      toNat_ofNat (by omega)
    have hend := List.Forall₂.cons (inRange_tail (v / 64)) (.cons (inRange_tail v) .nil)
    rcases Nat.eq_zero_or_pos (v / 262144) with h0 | h0
    · refine ⟨_, [(0x90, 0xBF), tail, tail], _, rfl, ranges_eq_some.2 (by rw [hb]; grind),
        .cons ?_ hend⟩
      rw [inRange_iff, hc1]
      exact ⟨show 0x90 ≤ _ by omega, show _ ≤ 0xBF by omega⟩
    by_cases h4 : v / 262144 = 4
    · refine ⟨_, [(0x80, 0x8F), tail, tail], _, rfl, ranges_eq_some.2 (by rw [hb]; grind),
        .cons ?_ hend⟩
      rw [inRange_iff, hc1]
      exact ⟨show 0x80 ≤ _ by omega, show _ ≤ 0x8F by omega⟩
    · exact ⟨_, [tail, tail, tail], _, rfl, ranges_eq_some.2 (by rw [hb]; grind),
        .cons (inRange_tail _) hend⟩

/-- The payloads of a character's bytes are its scalar value. -/
theorem scalar_utf8EncodeChar (c : Char) : scalar (String.utf8EncodeChar c) = c.val.toNat := by
  have hle : ∀ n b : UInt8, b ≤ n ↔ b.toNat ≤ n.toNat := fun _ _ => Iff.rfl
  have hcases := utf8EncodeChar_cases c
  generalize c.val.toNat = v at hcases
  rcases hcases with ⟨h, he⟩ | ⟨h, h', he⟩ | ⟨h, h', he⟩ | ⟨h, h', he⟩ <;>
    rw [he] <;> simp only [scalar, payload, hle, List.foldl, UInt8.toNat_ofNat', UInt8.reduceToNat] <;>
    split_ifs <;> omega

/-- There is a character for each scalar value. -/
theorem exists_char {v : ℕ} (hv : v < 0xD800 ∨ 0xDFFF < v ∧ v < 0x110000) :
    ∃ c : Char, c.val.toNat = v := ⟨Char.ofNatAux v hv, rfl⟩

/-- A byte is what `ofNat` makes of its value. -/
theorem eq_ofNat {b : UInt8} {n : ℕ} (h : b.toNat = n) : b = UInt8.ofNat n := by
  rw [← h, UInt8.ofNat_toNat]

/-- A byte of ASCII is the encoding of a character. -/
theorem exists_one {b : UInt8} (hb : b.toNat < 0x80) : ∃ c : Char, [b] = String.utf8EncodeChar c := by
  obtain ⟨c, hc⟩ := exists_char (.inl (show b.toNat < 0xD800 by omega))
  refine ⟨c, ?_⟩
  have hcases := utf8EncodeChar_cases c
  rw [hc] at hcases
  rcases hcases with ⟨-, he⟩ | ⟨h, -⟩ | ⟨h, -⟩ | ⟨h, -⟩
  · rw [he, ← eq_ofNat rfl]
  all_goals omega

/-- Two bytes in their ranges are the encoding of a character. -/
theorem exists_two {b x : UInt8} (hb : 0xC2 ≤ b.toNat ∧ b.toNat < 0xE0)
    (hx : 0x80 ≤ x.toNat ∧ x.toNat ≤ 0xBF) : ∃ c : Char, [b, x] = String.utf8EncodeChar c := by
  obtain ⟨c, hc⟩ := exists_char (v := (b.toNat - 0xC0) * 64 + (x.toNat - 0x80)) (by omega)
  refine ⟨c, ?_⟩
  have hcases := utf8EncodeChar_cases c
  rw [hc] at hcases
  rcases hcases with ⟨h, -⟩ | ⟨-, -, he⟩ | ⟨h, -⟩ | ⟨h, -⟩
  · omega
  · rw [he, ← eq_ofNat (b := b) (by omega), ← eq_ofNat (b := x) (by omega)]
  all_goals omega

/-- Three bytes, neither overlong nor a surrogate, are the encoding of a character. -/
theorem exists_three {b x y : UInt8} (hb : 0xE0 ≤ b.toNat ∧ b.toNat < 0xF0)
    (hx : 0x80 ≤ x.toNat ∧ x.toNat ≤ 0xBF) (hy : 0x80 ≤ y.toNat ∧ y.toNat ≤ 0xBF)
    (hlow : b.toNat = 0xE0 → 0xA0 ≤ x.toNat) (hhigh : b.toNat = 0xED → x.toNat ≤ 0x9F) :
    ∃ c : Char, [b, x, y] = String.utf8EncodeChar c := by
  obtain ⟨c, hc⟩ := exists_char
    (v := (b.toNat - 0xE0) * 4096 + (x.toNat - 0x80) * 64 + (y.toNat - 0x80)) (by omega)
  refine ⟨c, ?_⟩
  have hcases := utf8EncodeChar_cases c
  rw [hc] at hcases
  rcases hcases with ⟨h, -⟩ | ⟨-, h, -⟩ | ⟨-, -, he⟩ | ⟨h, -⟩
  · omega
  · omega
  · rw [he, ← eq_ofNat (b := b) (by omega), ← eq_ofNat (b := x) (by omega),
      ← eq_ofNat (b := y) (by omega)]
  · omega

/-- Four bytes, neither overlong nor past the last character, are the encoding of a character. -/
theorem exists_four {b x y z : UInt8} (hb : 0xF0 ≤ b.toNat ∧ b.toNat ≤ 0xF4)
    (hx : 0x80 ≤ x.toNat ∧ x.toNat ≤ 0xBF) (hy : 0x80 ≤ y.toNat ∧ y.toNat ≤ 0xBF)
    (hz : 0x80 ≤ z.toNat ∧ z.toNat ≤ 0xBF)
    (hlow : b.toNat = 0xF0 → 0x90 ≤ x.toNat) (hhigh : b.toNat = 0xF4 → x.toNat ≤ 0x8F) :
    ∃ c : Char, [b, x, y, z] = String.utf8EncodeChar c := by
  obtain ⟨c, hc⟩ := exists_char (v := (b.toNat - 0xF0) * 262144 + (x.toNat - 0x80) * 4096 +
    (y.toNat - 0x80) * 64 + (z.toNat - 0x80)) (by omega)
  refine ⟨c, ?_⟩
  have hcases := utf8EncodeChar_cases c
  rw [hc] at hcases
  rcases hcases with ⟨h, -⟩ | ⟨-, h, -⟩ | ⟨-, h, -⟩ | ⟨-, -, he⟩
  · omega
  · omega
  · omega
  · rw [he, ← eq_ofNat (b := b) (by omega), ← eq_ofNat (b := x) (by omega),
      ← eq_ofNat (b := y) (by omega), ← eq_ofNat (b := z) (by omega)]

/-- Bytes as the ranges ask for are the encoding of a character. -/
theorem exists_utf8EncodeChar {bytes : List UInt8} (h : Encoded bytes) :
    ∃ c : Char, bytes = String.utf8EncodeChar c := by
  obtain ⟨b, rs, tl, rfl, hrs, htl⟩ := h
  have hrange : ∀ {low high x : UInt8}, InRange (low, high) x →
      low.toNat ≤ x.toNat ∧ x.toNat ≤ high.toNat := fun h => h
  rcases ranges_eq_some.1 hrs with ⟨hb, rfl⟩ | ⟨hb, hb', rfl⟩ | ⟨hb, rfl⟩ | ⟨hb, rfl⟩ |
    ⟨hb, hb', hne, rfl⟩ | ⟨hb, rfl⟩ | ⟨hb, hb', rfl⟩ | ⟨hb, rfl⟩
  · rcases htl with - | -
    exact exists_one hb
  · rcases htl with - | ⟨hx, - | -⟩
    exact exists_two ⟨hb, hb'⟩ (hrange hx)
  · rcases htl with - | ⟨hx, - | ⟨hy, - | -⟩⟩
    have hx' := hrange hx
    simp only [UInt8.reduceToNat] at hx'
    exact exists_three (by omega) (by omega) (hrange hy) (by omega) (by omega)
  · rcases htl with - | ⟨hx, - | ⟨hy, - | -⟩⟩
    have hx' := hrange hx
    simp only [UInt8.reduceToNat] at hx'
    exact exists_three (by omega) (by omega) (hrange hy) (by omega) (by omega)
  · rcases htl with - | ⟨hx, - | ⟨hy, - | -⟩⟩
    exact exists_three (by omega) (hrange hx) (hrange hy) (by omega) (by omega)
  · rcases htl with - | ⟨hx, - | ⟨hy, - | ⟨hz, - | -⟩⟩⟩
    have hx' := hrange hx
    simp only [UInt8.reduceToNat] at hx'
    exact exists_four (by omega) (by omega) (hrange hy) (hrange hz) (by omega) (by omega)
  · rcases htl with - | ⟨hx, - | ⟨hy, - | ⟨hz, - | -⟩⟩⟩
    exact exists_four (by omega) (hrange hx) (hrange hy) (hrange hz) (by omega) (by omega)
  · rcases htl with - | ⟨hx, - | ⟨hy, - | ⟨hz, - | -⟩⟩⟩
    have hx' := hrange hx
    simp only [UInt8.reduceToNat] at hx'
    exact exists_four (by omega) (by omega) (hrange hy) (hrange hz) (by omega) (by omega)

/-- The ranges ask for the encodings of characters, and for nothing else. -/
theorem encoded_iff {bytes : List UInt8} :
    Encoded bytes ↔ ∃ c : Char, bytes = String.utf8EncodeChar c := by
  constructor
  · exact exists_utf8EncodeChar
  · rintro ⟨c, rfl⟩
    exact encoded_utf8EncodeChar c

/-! ## Valid byte strings -/

/-- The empty byte string is valid. -/
theorem valid_nil : Valid [] := ⟨[], rfl⟩

/-- Valid byte strings one after the other are valid. -/
theorem Valid.append {s t : List UInt8} (hs : Valid s) (ht : Valid t) : Valid (s ++ t) := by
  obtain ⟨cs, rfl⟩ := hs
  obtain ⟨ds, rfl⟩ := ht
  exact ⟨cs ++ ds, List.flatMap_append.symm⟩

/-- A character is valid. -/
theorem Encoded.valid {bytes : List UInt8} (h : Encoded bytes) : Valid bytes := by
  obtain ⟨c, rfl⟩ := encoded_iff.1 h
  exact ⟨[c], (List.flatMap_singleton _ _).symm⟩

/-! ## Scanning -/

/-- The ranges that are still to come in a character after one more byte, `none` if it cannot be there. -/
def next : List (UInt8 × UInt8) → UInt8 → Option (List (UInt8 × UInt8))
  | [], b => ranges b
  | r :: rs, b => if InRange r b then some rs else none

/-- The ranges that are still to come after some bytes, from those to come before them. -/
def scan : List (UInt8 × UInt8) → List UInt8 → Option (List (UInt8 × UInt8))
  | rs, [] => some rs
  | rs, b :: s => (next rs b).bind fun rs => scan rs s

/-- Bytes are scanned one after another. -/
theorem scan_append (rs : List (UInt8 × UInt8)) (s t : List UInt8) :
    scan rs (s ++ t) = (scan rs s).bind fun rs => scan rs t := by
  induction s generalizing rs with
  | nil => rfl
  | cons b s ih =>
    rw [List.cons_append, scan, scan, Option.bind_assoc]
    exact congrArg _ (funext fun rs => ih rs)

/-- The bytes that were still to come are scanned to the end of the character. -/
theorem scan_of_forall₂ {rs : List (UInt8 × UInt8)} {tl : List UInt8} (h : List.Forall₂ InRange rs tl) :
    scan rs tl = some [] := by
  induction h with
  | nil => rfl
  | cons hr _ ih => rw [scan, next, if_pos hr, Option.bind_some, ih]

/-- A character is scanned. -/
theorem Encoded.scan {bytes : List UInt8} (h : Encoded bytes) : scan [] bytes = some [] := by
  obtain ⟨b, rs, tl, rfl, hrs, htl⟩ := h
  rw [Utf8.scan, next, hrs, Option.bind_some, scan_of_forall₂ htl]

/-- Bytes that are scanned to the end of a character are those that were to come, and then characters. -/
theorem of_scan_eq_nil {rs : List (UInt8 × UInt8)} {s : List UInt8} (h : scan rs s = some []) :
    ∃ tl s', s = tl ++ s' ∧ List.Forall₂ InRange rs tl ∧ Valid s' := by
  induction s generalizing rs with
  | nil =>
    cases h
    exact ⟨[], [], rfl, .nil, valid_nil⟩
  | cons b s ih =>
    obtain ⟨rs', hnext, hscan⟩ := Option.bind_eq_some_iff.1 h
    obtain ⟨tl, s', rfl, htl, hs'⟩ := ih hscan
    cases rs with
    | nil =>
      -- A character starts here.
      have hchar : Encoded (b :: tl) := ⟨b, rs', tl, rfl, hnext, htl⟩
      exact ⟨[], b :: (tl ++ s'), rfl, .nil, hchar.valid.append hs'⟩
    | cons r rs =>
      rw [next] at hnext
      split_ifs at hnext with hr
      cases hnext
      exact ⟨b :: tl, s', rfl, .cons hr htl, hs'⟩

/-- A byte string is scanned to the end of a character exactly when it is valid. -/
theorem scan_eq_nil_iff {s : List UInt8} : scan [] s = some [] ↔ Valid s := by
  constructor
  · intro h
    obtain ⟨tl, s', rfl, htl, hs'⟩ := of_scan_eq_nil h
    cases htl
    exact hs'
  · rintro ⟨cs, rfl⟩
    induction cs with
    | nil => rfl
    | cons c cs ih => rw [encode_cons, scan_append, (encoded_utf8EncodeChar c).scan, Option.bind_some, ih]

/-- The ranges that a byte asks for can be met. -/
theorem forall_le_of_next {rs rs' : List (UInt8 × UInt8)} {b : UInt8} (hrs : ∀ r ∈ rs, r.1 ≤ r.2)
    (h : next rs b = some rs') : ∀ r ∈ rs', r.1 ≤ r.2 := by
  cases rs with
  | nil =>
    rcases ranges_eq_some.1 h with ⟨-, rfl⟩ | ⟨-, -, rfl⟩ | ⟨-, rfl⟩ | ⟨-, rfl⟩ | ⟨-, -, -, rfl⟩ |
      ⟨-, rfl⟩ | ⟨-, -, rfl⟩ | ⟨-, rfl⟩ <;> simp
  | cons r rs =>
    rw [next] at h
    split_ifs at h
    cases h
    exact fun r' hr' => hrs r' (List.mem_cons_of_mem r hr')

/-- The ranges that are still to come can be met. -/
theorem forall_le_of_scan {rs rs' : List (UInt8 × UInt8)} {s : List UInt8} (hrs : ∀ r ∈ rs, r.1 ≤ r.2)
    (h : scan rs s = some rs') : ∀ r ∈ rs', r.1 ≤ r.2 := by
  induction s generalizing rs with
  | nil =>
    cases h
    exact hrs
  | cons b s ih =>
    obtain ⟨rs₁, hnext, hscan⟩ := Option.bind_eq_some_iff.1 h
    exact ih (forall_le_of_next hrs hnext) hscan

/-- A byte string is scanned exactly when bytes after it can make it valid. -/
theorem scan_isSome_iff {s : List UInt8} : (scan [] s).isSome ↔ ∃ t, Valid (s ++ t) := by
  constructor
  · intro h
    obtain ⟨rs, hrs⟩ := Option.isSome_iff_exists.1 h
    have hle := forall_le_of_scan (fun r hr => absurd hr List.not_mem_nil) hrs
    have hfirst : List.Forall₂ InRange rs (rs.map Prod.fst) := by
      rw [List.forall₂_map_right_iff, List.forall₂_same]
      exact fun r hr => ⟨UInt8.le_refl r.1, hle r hr⟩
    refine ⟨rs.map Prod.fst, scan_eq_nil_iff.1 ?_⟩
    rw [scan_append, hrs]
    exact scan_of_forall₂ hfirst
  · rintro ⟨t, ht⟩
    rw [← scan_eq_nil_iff, scan_append] at ht
    obtain ⟨rs, hrs, -⟩ := Option.bind_eq_some_iff.1 ht
    exact Option.isSome_iff_exists.2 ⟨rs, hrs⟩

end Utf8
