import Mathlib.Algebra.Ring.Int.Defs
import Mathlib.Data.List.Induction
import Typhoon.Library.CString

/-!
# `atoi`

`atoi` reads the integer at the start of a C string, after white space and a sign, and returns 0 where
there is none. It leaves open what is returned for an integer that is not an `int`, which is a parameter
here. `leadingInt_pos_iff` says which strings start with a positive integer.
-/

namespace CString

/-- `isspace` in the C locale. -/
def isspace (c : UInt8) : Bool := c = 32 || (9 ≤ c && c ≤ 13)

/-- `isdigit`. -/
def isdigit (c : UInt8) : Bool := 48 ≤ c && c ≤ 57

/-- The number that decimal digits write, the most significant one first. -/
def digitsValue (digits : List UInt8) : ℕ := digits.foldl (fun n c => 10 * n + (c.toNat - 48)) 0

/-- The integer at the start of bytes from which white space has been skipped, 0 if there is none. -/
def signedInt : List UInt8 → ℤ
  | 45 :: cs => -digitsValue (cs.takeWhile isdigit)
  | 43 :: cs => digitsValue (cs.takeWhile isdigit)
  | cs => digitsValue (cs.takeWhile isdigit)

/-- The integer at the start of a C string, 0 if there is none. -/
def leadingInt (s : CString) : ℤ := signedInt (s.bytes.dropWhile isspace)

/-- An integer that is an `int`. -/
def FitsInt (z : ℤ) : Prop := -2 ^ 31 ≤ z ∧ z < 2 ^ 31

/-- Whether an integer is an `int` is decided by comparing it. -/
instance (z : ℤ) : Decidable (FitsInt z) := inferInstanceAs (Decidable (_ ∧ _))

/-- `atoi`, which returns `undefined` where the integer is not an `int`. -/
def atoi (undefined : CString → Int32) (s : CString) : Int32 :=
  if FitsInt (leadingInt s) then Int32.ofInt (leadingInt s) else undefined s

/-- An integer that is an `int` is returned. -/
theorem toInt_atoi (undefined : CString → Int32) {s : CString} (h : FitsInt (leadingInt s)) :
    (atoi undefined s).toInt = leadingInt s := by
  rw [atoi, if_pos h, Int32.toInt_ofInt_of_le h.1 h.2]

/-- One more digit adds to ten times the value. -/
theorem digitsValue_concat (digits : List UInt8) (c : UInt8) :
    digitsValue (digits ++ [c]) = 10 * digitsValue digits + (c.toNat - 48) := by
  simp [digitsValue]

/-- A digit is at least 0. -/
theorem le_toNat_of_isdigit {c : UInt8} (h : isdigit c = true) : 48 ≤ c.toNat := by
  simp only [isdigit, Bool.and_eq_true, decide_eq_true_eq, UInt8.le_iff_toNat_le] at h
  exact h.1

/-- A digit is not white space. -/
theorem isspace_of_isdigit {c : UInt8} (h : isdigit c = true) : isspace c = false := by
  have hc := le_toNat_of_isdigit h
  have hne : c ≠ 32 := by
    rintro rfl
    exact absurd hc (by decide)
  have hlt : ¬ c ≤ 13 := by
    rw [UInt8.le_iff_toNat_le]
    show ¬ c.toNat ≤ 13
    omega
  simp [isspace, hne, hlt]

/-- Digits write a positive number exactly when one of them is not 0. -/
theorem digitsValue_pos_iff {digits : List UInt8} (h : ∀ c ∈ digits, isdigit c = true) :
    0 < digitsValue digits ↔ ∃ c ∈ digits, c ≠ 48 := by
  induction digits using List.reverseRecOn with
  | nil => simp [digitsValue]
  | append_singleton digits c ih =>
    have hc := le_toNat_of_isdigit (h c (List.mem_append_right _ (List.mem_singleton_self c)))
    have hzero : c ≠ 48 ↔ 0 < c.toNat - 48 := by
      rw [ne_eq, ← UInt8.toNat_inj]
      show ¬ c.toNat = 48 ↔ _
      omega
    have ih' := ih fun d hd => h d (List.mem_append_left _ hd)
    rw [digitsValue_concat]
    constructor
    · intro hpos
      by_cases hc0 : c = 48
      -- The last digit adds nothing, so an earlier one is not 0.
      · rw [hc0] at hpos
        obtain ⟨d, hd, hne⟩ := ih'.1 (by simpa using hpos)
        exact ⟨d, List.mem_append_left _ hd, hne⟩
      · exact ⟨c, List.mem_append_right _ (List.mem_singleton_self c), hc0⟩
    · rintro ⟨d, hd, hne⟩
      rcases List.mem_append.1 hd with hd | hd
      · have := ih'.2 ⟨d, hd, hne⟩
        omega
      · rw [List.mem_singleton.1 hd] at hne
        have := hzero.1 hne
        omega

/-- A string that starts with a positive integer: white space, no sign or a plus, and digits that are
not all 0. -/
def StartsPositive (s : CString) : Prop :=
  ∃ spaces sign digits rest, s.bytes = spaces ++ (sign ++ (digits ++ rest)) ∧
    (∀ c ∈ spaces, isspace c = true) ∧ (sign = [] ∨ sign = [43]) ∧
    (∀ c ∈ digits, isdigit c = true) ∧ ∃ c ∈ digits, c ≠ 48

/-- The digits at the start are a positive number when one of them is not 0. -/
theorem digitsValue_takeWhile_pos_iff (cs : List UInt8) :
    0 < digitsValue (cs.takeWhile isdigit) ↔
      ∃ digits rest, cs = digits ++ rest ∧ (∀ c ∈ digits, isdigit c = true) ∧
        ∃ c ∈ digits, c ≠ 48 := by
  have hdigits : ∀ c ∈ cs.takeWhile isdigit, isdigit c = true := fun c hc => List.mem_takeWhile_imp hc
  rw [digitsValue_pos_iff hdigits]
  constructor
  · intro h
    exact ⟨_, _, List.takeWhile_append_dropWhile.symm, hdigits, h⟩
  · rintro ⟨digits, rest, rfl, hdig, c, hc, hne⟩
    rw [List.takeWhile_append_of_pos hdig]
    exact ⟨c, List.mem_append_left _ hc, hne⟩

/-- Nothing is read at a byte that is no digit. -/
theorem digitsValue_takeWhile_cons {c : UInt8} (h : isdigit c = false) (cs : List UInt8) :
    digitsValue ((c :: cs).takeWhile isdigit) = 0 := by
  rw [List.takeWhile_cons_of_neg (Bool.eq_false_iff.1 h)]
  rfl

/-- Bytes without white space in front start with a positive integer exactly when, after a plus if
there is one, they start with digits that are not all 0. -/
theorem signedInt_pos_iff (cs : List UInt8) :
    0 < signedInt cs ↔ ∃ sign rest, cs = sign ++ rest ∧ (sign = [] ∨ sign = [43]) ∧
      0 < digitsValue (rest.takeWhile isdigit) := by
  fun_cases signedInt cs with
  | case1 cs =>
    -- After a minus nothing is positive, and the minus is no digit.
    apply iff_of_false
    · omega
    · rintro ⟨sign, rest, h, rfl | rfl, hpos⟩
      · obtain rfl : _ = rest := h
        rw [digitsValue_takeWhile_cons (by decide)] at hpos
        exact absurd hpos (lt_irrefl 0)
      · exact absurd (List.cons.inj h).1 (by decide)
  | case2 cs =>
    constructor
    · intro h
      exact ⟨[43], cs, rfl, .inr rfl, by omega⟩
    · rintro ⟨sign, rest, h, rfl | rfl, hpos⟩
      · obtain rfl : _ = rest := h
        rw [digitsValue_takeWhile_cons (by decide)] at hpos
        exact absurd hpos (lt_irrefl 0)
      · rw [(List.cons.inj h).2]
        exact_mod_cast hpos
  | case3 cs hminus hplus =>
    constructor
    · intro h
      exact ⟨[], cs, rfl, .inl rfl, by omega⟩
    · rintro ⟨sign, rest, rfl, rfl | rfl, hpos⟩
      · exact_mod_cast hpos
      · exact absurd rfl (hplus rest)

/-- A string starts with a positive integer exactly when `leadingInt` reads one. -/
theorem leadingInt_pos_iff (s : CString) : 0 < leadingInt s ↔ StartsPositive s := by
  unfold leadingInt StartsPositive
  rw [signedInt_pos_iff]
  constructor
  · rintro ⟨sign, rest, h, hsign, hpos⟩
    obtain ⟨digits, rest', rfl, hdigits, hne⟩ := (digitsValue_takeWhile_pos_iff rest).1 hpos
    refine ⟨s.bytes.takeWhile isspace, sign, digits, rest', ?_, ?_, hsign, hdigits, hne⟩
    · rw [← h, List.takeWhile_append_dropWhile]
    · exact fun c hc => List.mem_takeWhile_imp hc
  · rintro ⟨spaces, sign, digits, rest, h, hspaces, hsign, hdigits, hne⟩
    refine ⟨sign, digits ++ rest, ?_, hsign,
      (digitsValue_takeWhile_pos_iff _).2 ⟨digits, rest, rfl, hdigits, hne⟩⟩
    rw [h, List.dropWhile_append_of_pos hspaces]
    -- A sign or a digit is in front now, and neither is white space.
    rcases hsign with rfl | rfl
    · obtain ⟨c, hc, -⟩ := hne
      cases digits with
      | nil => exact absurd hc List.not_mem_nil
      | cons d digits =>
        have hd := isspace_of_isdigit (hdigits d List.mem_cons_self)
        exact List.dropWhile_cons_of_neg (Bool.eq_false_iff.1 hd)
    · exact List.dropWhile_cons_of_neg (by decide)

/-- Whether a string starts with a positive integer is decided by its value. -/
instance (s : CString) : Decidable (StartsPositive s) := decidable_of_iff _ (leadingInt_pos_iff s)

end CString
