import Mathlib.Data.Nat.Digits.Lemmas
import Typhoon.Json.Numbers

/-!
# Written numbers

What `dump` writes for a number is a number of the JSON grammar, and the scanner makes the same number of
it. For integers this rests on the digits of a natural number. For floats it rests on what is documented of
`grisu2` and `strtod`, which `LawfulNumberFloat` states: the digits of a number, without a leading zero, with
an exponent of at most three digits, that give the number back.
-/

namespace Typhoon

open Json in
/-- What the library relies on for its floats. -/
class LawfulNumberFloat (F : Type*) [NumberFloat F] : Prop where
  /-- The opposite of a finite negative number is finite and positive. -/
  neg : ∀ x : F, NumberFloat.isfinite x = true → NumberFloat.signbit x = true →
    NumberFloat.isfinite (NumberFloat.neg x) = true ∧ NumberFloat.signbit (NumberFloat.neg x) = false
  /-- The digits of a positive number. -/
  digits : ∀ x : F, NumberFloat.isfinite x = true → NumberFloat.signbit x = false →
    NumberFloat.isZero x = false →
      ∃ d ds, (NumberFloat.grisu2 x).1 = d :: ds ∧ CString.isdigit d = true ∧ d ≠ '0'.toUInt8 ∧ Digits ds
  /-- The exponent of a positive number, with one digit before the point. -/
  exponent : ∀ x : F, NumberFloat.isfinite x = true → NumberFloat.signbit x = false →
    NumberFloat.isZero x = false →
      -1000 < (NumberFloat.grisu2 x).1.length + (NumberFloat.grisu2 x).2 - 1 ∧
        (NumberFloat.grisu2 x).1.length + (NumberFloat.grisu2 x).2 - 1 < 1000
  /-- The text of a finite number gives it back. -/
  strtod_toChars : ∀ x : F, NumberFloat.isfinite x = true → NumberFloat.strtod (toChars x) = x
  /-- A finite number is equal to itself. -/
  eq_self : ∀ x : F, NumberFloat.isfinite x = true → NumberFloat.eq x x = true

namespace Json

open CString (isdigit digitsValue)

/-! ## Integers -/

/-- The byte of a digit. -/
def digitByte (d : ℕ) : UInt8 := UInt8.ofNat (0x30 + d)

/-- The byte of a digit is one. -/
theorem isdigit_digitByte {d : ℕ} (hd : d < 10) : isdigit (digitByte d) = true := by
  revert d
  decide

/-- The byte of a digit is 48 above it. -/
theorem toNat_digitByte {d : ℕ} (hd : d < 10) : (digitByte d).toNat - 48 = d := by
  revert d
  decide

/-- A number and its opposite have the same digits. -/
theorem digitsLoop_neg (x : ℤ) : digitsLoop (-x) = digitsLoop x := by
  fun_induction digitsLoop x with
  | case1 => rw [neg_zero, digitsLoop, if_pos rfl]
  | case2 x hx ih =>
    rw [digitsLoop, if_neg (by omega), Int.neg_tdiv, ih, Int.neg_tmod, Int.natAbs_neg]

/-- The loop writes the decimal digits. -/
theorem digitsLoop_natCast (n : ℕ) : digitsLoop n = (Nat.digits 10 n).map digitByte := by
  induction n using Nat.strong_induction_on with
  | _ n ih =>
    rcases Nat.eq_zero_or_pos n with rfl | hn
    · rw [Nat.cast_zero, digitsLoop, if_pos rfl]
      rfl
    · have hdiv : (n : ℤ).tdiv 10 = (n / 10 : ℕ) := rfl
      have hmod : (n : ℤ).tmod 10 = (n % 10 : ℕ) := rfl
      rw [digitsLoop, if_neg (by omega), hdiv, hmod, ih (n / 10) (by omega), Int.natAbs_natCast,
        Nat.digits_def' (by decide) hn, List.map_cons]
      rfl

/-- The value of digits written last to first is the number with these digits. -/
theorem digitsValue_reverse {ds : List ℕ} (hds : ∀ d ∈ ds, d < 10) :
    digitsValue (ds.map digitByte).reverse = Nat.ofDigits 10 ds := by
  induction ds with
  | nil => rfl
  | cons d ds ih =>
    rw [List.map_cons, List.reverse_cons, CString.digitsValue_concat,
      ih fun c hc => hds c (List.mem_cons_of_mem _ hc), toNat_digitByte (hds d (List.mem_cons_self ..)),
      Nat.ofDigits_cons, Nat.add_comm]

/-- The text of a positive number is its decimal digits, the first one first. -/
theorem dumpInteger_natCast {n : ℕ} (hn : 0 < n) :
    dumpInteger n = ((Nat.digits 10 n).map digitByte).reverse := by
  rw [dumpInteger, if_neg (by omega), if_neg (by omega), List.append_nil, digitsLoop_natCast]

/-- What is written for the opposite of one. -/
theorem dumpInteger_neg {n : ℕ} (hn : 0 < n) : dumpInteger (-n) = '-'.toUInt8 :: dumpInteger n := by
  rw [dumpInteger_natCast hn, dumpInteger, if_neg (by omega), if_pos (by omega), digitsLoop_neg,
    digitsLoop_natCast, List.reverse_append]
  rfl

/-- What is written for a natural number has its value. -/
theorem digitsValue_dumpInteger (n : ℕ) : digitsValue (dumpInteger n) = n := by
  rcases Nat.eq_zero_or_pos n with rfl | hn
  · rfl
  · rw [dumpInteger_natCast hn, digitsValue_reverse fun d hd => Nat.digits_lt_base (by decide) hd,
      Nat.ofDigits_digits]

/-- What is written for a natural number is the integer of a number. -/
theorem intPart_dumpInteger (n : ℕ) : IntPart (dumpInteger n) := by
  rcases Nat.eq_zero_or_pos n with rfl | hn
  · exact .zero
  · have hne : Nat.digits 10 n ≠ [] := Nat.digits_ne_nil_iff_ne_zero.2 hn.ne'
    have hlt : ∀ d ∈ Nat.digits 10 n, d < 10 := fun d hd => Nat.digits_lt_base (by decide) hd
    have hlast := Nat.getLast_digit_ne_zero 10 hn.ne'
    have hsplit := List.dropLast_append_getLast hne
    generalize (Nat.digits 10 n).getLast hne = d at hlast hsplit
    -- The most significant digit is the last one, and comes first.
    rw [dumpInteger_natCast hn, ← hsplit, List.map_append, List.reverse_append]
    have hd : d < 10 := hlt d (by rw [← hsplit]; exact List.mem_append_right _ (List.mem_singleton_self d))
    refine .nonzero (isdigit_digitByte hd) ?_ ?_
    · intro h
      have hval := toNat_digitByte hd
      rw [h] at hval
      exact hlast hval.symm
    · intro c hc
      have hc' : c ∈ ((Nat.digits 10 n).dropLast.map digitByte).reverse := hc
      rw [List.mem_reverse, List.mem_map] at hc'
      obtain ⟨e, he, rfl⟩ := hc'
      exact isdigit_digitByte (hlt e (List.mem_of_mem_dropLast he))

/-- The integer of a number has digits only. -/
theorem IntPart.digits {int : List UInt8} (h : IntPart int) : Digits int := by
  cases h with
  | zero => exact digits_cons (by decide) digits_nil
  | nonzero hd _ hds => exact digits_cons hd hds

/-- The text of an unsigned integer. -/
def unsignedText (n : ℕ) : NumberText where
  minus := false
  int := dumpInteger n
  frac := []
  exp := []
  int_part := intPart_dumpInteger n
  frac_part := .none
  exp_part := .none

/-- The text of the opposite of an unsigned integer. -/
def negativeText (n : ℕ) : NumberText := { unsignedText n with minus := true }

/-- The text of an unsigned integer is that of a number. -/
theorem bytes_unsignedText (n : ℕ) : (unsignedText n).bytes = dumpInteger n := by
  simp [NumberText.bytes, unsignedText]

/-- The text of a negative integer is that of a number. -/
theorem bytes_negativeText {n : ℕ} (hn : 0 < n) : (negativeText n).bytes = dumpInteger (-n) := by
  rw [dumpInteger_neg hn]
  simp [NumberText.bytes, negativeText, unsignedText]

variable {F : Type*} [NumberFloat F]

/-- The text of an unsigned integer is converted to it. -/
theorem numberToken_unsigned (n : UInt64) :
    numberToken (F := F) .unsigned (dumpInteger n.toNat) = .valueUnsigned n := by
  have hall : (dumpInteger n.toNat).takeWhile isdigit = dumpInteger n.toNat :=
    List.takeWhile_eq_self_iff.2 (intPart_dumpInteger n.toNat).digits
  rw [numberToken, strtoull, hall, digitsValue_dumpInteger, if_pos n.toNat_lt, UInt64.ofNat_toNat]

/-- The text of a negative integer is converted to it. -/
theorem numberToken_integer {n : Int64} (hn : n.toInt < 0) :
    numberToken (F := F) .integer (dumpInteger n.toInt) = .valueInteger n := by
  obtain ⟨m, hm⟩ : ∃ m : ℕ, n.toInt = -m := ⟨n.toInt.natAbs, by omega⟩
  have hall : (dumpInteger m).takeWhile isdigit = dumpInteger m :=
    List.takeWhile_eq_self_iff.2 (intPart_dumpInteger m).digits
  have hvalue : CString.signedInt (dumpInteger n.toInt) = n.toInt := by
    rw [hm, dumpInteger_neg (by omega)]
    show -(digitsValue ((dumpInteger m).takeWhile isdigit) : ℤ) = -m
    rw [hall, digitsValue_dumpInteger]
  have hlow := n.le_toInt
  have hhigh := n.toInt_lt
  rw [numberToken, strtoll, hvalue, if_pos ⟨hlow, hhigh⟩, Int64.ofInt_toInt]

/-! ## Floats -/

/-- Digits make a fraction. -/
theorem FracPart.of_digits {ds : List UInt8} (hne : ds ≠ []) (hds : Digits ds) :
    FracPart ('.'.toUInt8 :: ds) := by
  cases ds with
  | nil => exact absurd rfl hne
  | cons d ds => exact .point (hds d (List.mem_cons_self ..)) fun c hc => hds c (List.mem_cons_of_mem _ hc)

/-- Zeros are digits. -/
theorem digits_replicate (n : ℕ) : Digits (List.replicate n '0'.toUInt8) := by
  intro c hc
  rw [List.eq_of_mem_replicate hc]
  decide

/-- Digits after digits are digits. -/
theorem Digits.append {ds es : List UInt8} (hds : Digits ds) (hes : Digits es) : Digits (ds ++ es) := by
  intro c hc
  rcases List.mem_append.1 hc with hc | hc
  · exact hds c hc
  · exact hes c hc

/-- An exponent below 1000 is written as one. -/
theorem expPart_appendExponent {e : ℤ} (hlow : -1000 < e) (hhigh : e < 1000) :
    ExpPart ('e'.toUInt8 :: appendExponent e) := by
  have hdigit : ∀ d, d < 10 → isdigit (UInt8.ofNat (0x30 + d)) = true := fun d hd => isdigit_digitByte hd
  have hone : ∀ d, d < 10 → Digits [UInt8.ofNat (0x30 + d)] :=
    fun d hd => digits_cons (hdigit d hd) digits_nil
  have hsign : (if e < 0 then '-'.toUInt8 else '+'.toUInt8) = '+'.toUInt8 ∨
      (if e < 0 then '-'.toUInt8 else '+'.toUInt8) = '-'.toUInt8 := by
    split_ifs
    · exact .inr rfl
    · exact .inl rfl
  have hk : e.natAbs < 1000 := by omega
  unfold appendExponent
  generalize e.natAbs = k at hk
  dsimp only
  -- Two digits at least, and three from 100 on.
  by_cases h1 : k < 10
  · rw [if_pos h1]
    exact .signed (.inl rfl) hsign (by decide) (hone k h1)
  · by_cases h2 : k < 100
    · rw [if_neg h1, if_pos h2]
      exact .signed (.inl rfl) hsign (hdigit _ (by omega)) (hone _ (by omega))
    · rw [if_neg h1, if_neg h2]
      exact .signed (.inl rfl) hsign (hdigit _ (by omega))
        (digits_cons (hdigit _ (by omega)) (hone _ (by omega)))

/-- The text that `format_buffer` lays out is that of a float. -/
theorem exists_formatBuffer {d : UInt8} {ds : List UInt8} (hd : isdigit d = true)
    (hne : d ≠ '0'.toUInt8) (hds : Digits ds) {decimalExponent : ℤ}
    (hlow : -1000 < (d :: ds).length + decimalExponent - 1)
    (hhigh : (d :: ds).length + decimalExponent - 1 < 1000) (minExp maxExp : ℤ) :
    ∃ t : NumberText, t.minus = false ∧ t.bytes = formatBuffer (d :: ds) decimalExponent minExp maxExp ∧
      t.type = .float := by
  unfold formatBuffer
  dsimp only
  generalize hn : ((d :: ds).length : ℤ) + decimalExponent = n at hlow hhigh
  split_ifs with h1 h2 h3 hk
  · -- All digits come before the point.
    have hint : IntPart (d :: (ds ++ List.replicate (n - (d :: ds).length).toNat '0'.toUInt8)) :=
      .nonzero hd hne (hds.append (digits_replicate _))
    refine ⟨⟨false, _, ['.'.toUInt8, '0'.toUInt8], [], hint, .point (by decide) digits_nil, .none⟩, rfl,
      ?_, rfl⟩
    simp [NumberText.bytes]
  · -- The point is among the digits.
    obtain ⟨m, hm⟩ : ∃ m : ℕ, n.toNat = m + 1 := ⟨n.toNat - 1, by omega⟩
    have hlen : m < ds.length := by
      rw [not_and_or] at h1
      simp only [List.length_cons] at h1
      omega
    have hint : IntPart (d :: ds.take m) :=
      .nonzero hd hne fun c hc => hds c (List.mem_of_mem_take hc)
    have hfrac : FracPart ('.'.toUInt8 :: ds.drop m) :=
      .of_digits (fun h => by simp at h; omega) fun c hc => hds c (List.mem_of_mem_drop hc)
    refine ⟨⟨false, _, _, [], hint, hfrac, .none⟩, rfl, ?_, rfl⟩
    simp [NumberText.bytes, hm]
  · -- Zeros come between the point and the digits.
    have hfrac : FracPart ('.'.toUInt8 :: (List.replicate (-n).toNat '0'.toUInt8 ++ d :: ds)) :=
      .of_digits (by simp) ((digits_replicate _).append (digits_cons hd hds))
    exact ⟨⟨false, ['0'.toUInt8], _, [], .zero, hfrac, .none⟩, rfl, by simp [NumberText.bytes], rfl⟩
  · -- One digit, and an exponent.
    have hnil : ds = [] := by simpa using hk
    subst hnil
    exact ⟨⟨false, [d], [], _, .nonzero hd hne digits_nil, .none, expPart_appendExponent hlow hhigh⟩, rfl,
      by simp [NumberText.bytes], rfl⟩
  · -- A digit before the point, and an exponent.
    have hfrac : FracPart ('.'.toUInt8 :: ds) := .of_digits (fun h => hk (by rw [h]; rfl)) hds
    exact ⟨⟨false, [d], _, _, .nonzero hd hne digits_nil, hfrac, expPart_appendExponent hlow hhigh⟩, rfl,
      by simp [NumberText.bytes], rfl⟩

variable [LawfulNumberFloat F]

/-- The text of a finite number, after its sign, is that of a float. -/
theorem exists_toCharsAbs {x : F} (hx : NumberFloat.isfinite x = true)
    (hsign : NumberFloat.signbit x = false) :
    ∃ t : NumberText, t.minus = false ∧ t.bytes = toCharsAbs x ∧ t.type = .float := by
  cases hzero : NumberFloat.isZero x with
  | true =>
    refine ⟨⟨false, ['0'.toUInt8], ['.'.toUInt8, '0'.toUInt8], [], .zero,
      .point (by decide) digits_nil, .none⟩, rfl, ?_, rfl⟩
    rw [toCharsAbs, if_pos hzero]
    rfl
  | false =>
    obtain ⟨d, ds, hdigits, hd, hne, hds⟩ := LawfulNumberFloat.digits x hx hsign hzero
    obtain ⟨hlow, hhigh⟩ := LawfulNumberFloat.exponent x hx hsign hzero
    rw [toCharsAbs, hzero, if_neg Bool.false_ne_true, toCharsPos]
    rw [hdigits] at hlow hhigh ⊢
    exact exists_formatBuffer hd hne hds hlow hhigh _ _

/-- The text of a finite number is that of a float. -/
theorem exists_toChars {x : F} (hx : NumberFloat.isfinite x = true) :
    ∃ t : NumberText, t.bytes = toChars x ∧ t.type = .float := by
  cases hsign : NumberFloat.signbit x with
  | false =>
    obtain ⟨t, -, hbytes, htype⟩ := exists_toCharsAbs hx hsign
    rw [toChars, hsign, if_neg Bool.false_ne_true]
    exact ⟨t, hbytes, htype⟩
  | true =>
    obtain ⟨hneg, hpos⟩ := LawfulNumberFloat.neg x hx hsign
    obtain ⟨t, hminus, hbytes, htype⟩ := exists_toCharsAbs hneg hpos
    have hfloat : ¬ (t.frac = [] ∧ t.exp = []) := by
      intro h
      rw [NumberText.type, if_pos h, hminus] at htype
      cases htype
    refine ⟨{ t with minus := true }, ?_, if_neg hfloat⟩
    rw [toChars, if_pos hsign, ← hbytes]
    simp [NumberText.bytes, hminus]

/-- The text of a finite number is converted to it. -/
theorem numberToken_float {x : F} (hx : NumberFloat.isfinite x = true) :
    numberToken .float (toChars x) = .valueFloat x := by
  rw [numberToken, LawfulNumberFloat.strtod_toChars x hx]

end Json

/-! ## A small number format -/

/-- The numbers 0 and 0.5, and an infinity for all others. -/
inductive Sample
  | zero
  | half
  | infinity
  deriving DecidableEq

/-- The numbers 0 and 0.5 are written and read as they are, and everything else overflows. -/
instance : NumberFloat Sample where
  strtod bytes :=
    if bytes = ['0', '.', '5'].map Char.toUInt8 then .half
    else if bytes = ['0', '.', '0'].map Char.toUInt8 then .zero
    else .infinity
  isfinite x := x ≠ .infinity
  signbit _ := false
  isZero x := x = .zero
  neg x := x
  grisu2 _ := (['5'.toUInt8], -1)
  eq x y := x = y
  ofUnsigned n := if n = 0 then .zero else .infinity
  ofInteger n := if n = 0 then .zero else .infinity
  toLongLong _ := 0

/-- The number 0. -/
instance : Zero Sample := ⟨.zero⟩

/-- What is written is read back. -/
instance : LawfulNumberFloat Sample where
  neg _ _ hsign := by cases hsign
  digits _ _ _ _ := ⟨'5'.toUInt8, [], rfl, rfl, by decide, fun _ h => by cases h⟩
  exponent _ _ _ _ :=
    show -1000 < (1 : ℤ) + -1 - 1 ∧ (1 : ℤ) + -1 - 1 < 1000 by decide
  strtod_toChars x hx := by
    cases x with
    | zero => decide
    | half => decide
    | infinity => cases hx
  eq_self x _ := decide_eq_true rfl

end Typhoon
