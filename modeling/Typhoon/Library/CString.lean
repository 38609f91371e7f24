import Mathlib.Data.Int.Notation
import Mathlib.Data.List.TakeWhile
import Mathlib.Tactic.Common

/-!
# C strings

A C string is the bytes before the first NUL (`CString`), so a buffer with a length of its own may
hold more than the C string at its start. `length_eq_strlen_iff` says when the two lengths agree, and
`strcasecmp_eq_zero_iff` when `strcasecmp` finds two strings equal.
-/

/-- The bytes of a C string, without the NUL that ends it. -/
structure CString where
  bytes : List UInt8
  nul_free : 0 ∉ bytes
  deriving DecidableEq

namespace CString

/-- The C string at the start of a buffer that a NUL follows. -/
def ofData (data : List UInt8) : CString where
  bytes := data.takeWhile (· ≠ 0)
  nul_free h := by simpa using List.mem_takeWhile_imp h

/-- `strlen`. -/
def strlen (s : CString) : ℕ := s.bytes.length

/-- A buffer without an embedded NUL is its own C string. -/
theorem bytes_ofData {data : List UInt8} (h : 0 ∉ data) : (ofData data).bytes = data :=
  List.takeWhile_eq_self_iff.2 fun c hc => by simpa using ne_of_mem_of_not_mem hc h

/-- A buffer is as long as the C string at its start exactly when no NUL is embedded in it. -/
theorem length_eq_strlen_iff (data : List UInt8) :
    data.length = (ofData data).strlen ↔ 0 ∉ data := by
  constructor
  · intro h
    have hsplit : (ofData data).bytes ++ data.dropWhile (· ≠ 0) = data :=
      List.takeWhile_append_dropWhile
    -- Nothing is dropped after the C string, so it is the whole buffer.
    have hlen := congrArg List.length hsplit
    rw [List.length_append, h, strlen, Nat.add_eq_left, List.length_eq_zero_iff] at hlen
    rw [← hsplit, hlen, List.append_nil]
    exact (ofData data).nul_free
  · intro h
    rw [strlen, bytes_ofData h]

/-- `tolower` in the C locale. -/
def tolower (c : UInt8) : UInt8 := if 65 ≤ c ∧ c ≤ 90 then c + 32 else c

/-- No byte of a C string is folded to NUL. -/
theorem tolower_ne_zero {c : UInt8} (h : c ≠ 0) : tolower c ≠ 0 := by
  unfold tolower
  split
  · grind
  · exact h

/-- The comparison of `strcasecmp`, byte by byte up to a difference or to the end of one string, where
its NUL is compared. -/
def casecmp : List UInt8 → List UInt8 → ℤ
  | [], [] => 0
  | a :: _, [] => (tolower a).toNat
  | [], b :: _ => -(tolower b).toNat
  | a :: as, b :: bs =>
    if tolower a = tolower b then casecmp as bs else (tolower a).toNat - (tolower b).toNat

/-- `strcasecmp` in the C locale. -/
def strcasecmp (s t : CString) : ℤ := casecmp s.bytes t.bytes

/-- Two byte strings are equal when ASCII case is ignored. -/
def EqIgnoreCase (as bs : List UInt8) : Prop := as.map tolower = bs.map tolower

/-- Byte strings are compared with all letters in lower case. -/
instance (as bs : List UInt8) : Decidable (EqIgnoreCase as bs) :=
  inferInstanceAs (Decidable (as.map tolower = bs.map tolower))

/-- `strcasecmp` returns 0 exactly on strings that are equal when ASCII case is ignored. -/
theorem strcasecmp_eq_zero_iff (s t : CString) :
    strcasecmp s t = 0 ↔ EqIgnoreCase s.bytes t.bytes := by
  unfold strcasecmp EqIgnoreCase
  obtain ⟨as, has⟩ := s
  obtain ⟨bs, hbs⟩ := t
  have hzero : ∀ c : UInt8, c ≠ 0 → (tolower c).toNat ≠ 0 := by
    intro c hc h
    exact tolower_ne_zero hc (UInt8.toNat_inj.1 h)
  dsimp only
  induction as, bs using casecmp.induct with
  | case1 => simp [casecmp]
  | case2 a as =>
    have := hzero a fun h => has (h ▸ List.mem_cons_self)
    simp [casecmp, this]
  | case3 b bs =>
    have := hzero b fun h => hbs (h ▸ List.mem_cons_self)
    simp [casecmp, this]
  | case4 a as b bs heq ih =>
    have hrest : casecmp as bs = 0 ↔ as.map tolower = bs.map tolower :=
      ih (List.not_mem_of_not_mem_cons has) (List.not_mem_of_not_mem_cons hbs)
    rw [casecmp, if_pos heq, hrest, List.map_cons, List.map_cons, List.cons.injEq]
    exact (and_iff_right heq).symm
  | case5 a as b bs hne =>
    rw [casecmp, if_neg hne, List.map_cons, List.map_cons, List.cons.injEq]
    refine iff_of_false (fun h => hne (UInt8.toNat_inj.1 ?_)) fun h => hne h.1
    omega

end CString
