import Mathlib.Tactic.Common
import Mathlib.Tactic.Ring

/-!
# Numbers in network byte order

A number as a fixed count of bytes, the most significant one first, and back.
-/

namespace BigEndian

/-- The `width` low bytes of a number, the most significant one first. -/
def toBytes : ℕ → ℕ → List UInt8
  | 0, _ => []
  | width + 1, n => UInt8.ofNat (n / 256 ^ width) :: toBytes width n

/-- The number that some bytes stand for. -/
def ofBytes (bytes : List UInt8) : ℕ := bytes.foldl (fun n b => n * 256 + b.toNat) 0

/-- There are `width` bytes. -/
@[simp] theorem length_toBytes (width n : ℕ) : (toBytes width n).length = width := by
  induction width with
  | zero => rfl
  | succ width ih => rw [toBytes, List.length_cons, ih]

/-- The last `width` of the bytes are those of the number in `width` bytes. -/
theorem drop_toBytes (k width n : ℕ) : (toBytes (k + width) n).drop k = toBytes width n := by
  induction k with
  | zero => rw [Nat.zero_add, List.drop_zero]
  | succ k ih => rw [Nat.succ_add, toBytes, List.drop_succ_cons, ih]

/-- Bytes are read onto those before them. -/
theorem foldl_toBytes (width n m : ℕ) :
    (toBytes width n).foldl (fun n b => n * 256 + b.toNat) m = m * 256 ^ width + n % 256 ^ width := by
  induction width generalizing m with
  | zero => simp [toBytes, Nat.mod_one]
  | succ width ih =>
    have hbyte : (UInt8.ofNat (n / 256 ^ width)).toNat = n / 256 ^ width % 256 := UInt8.toNat_ofNat'
    have hsplit : n % 256 ^ (width + 1) = n / 256 ^ width % 256 * 256 ^ width + n % 256 ^ width := by
      rw [Nat.pow_succ, Nat.mod_mul]
      ring
    rw [toBytes, List.foldl_cons, ih, hbyte, hsplit, Nat.pow_succ]
    ring

/-- A number is read back modulo `256 ^ width`. -/
theorem ofBytes_toBytes (width n : ℕ) : ofBytes (toBytes width n) = n % 256 ^ width := by
  rw [ofBytes, foldl_toBytes, Nat.zero_mul, Nat.zero_add]

/-- A number that fits is read back. -/
theorem ofBytes_toBytes_of_lt {width n : ℕ} (h : n < 256 ^ width) : ofBytes (toBytes width n) = n := by
  rw [ofBytes_toBytes, Nat.mod_eq_of_lt h]

/-- Bytes that are read onto a number add no more than their own digits. -/
theorem foldl_lt (bytes : List UInt8) (m : ℕ) :
    bytes.foldl (fun n b => n * 256 + b.toNat) m < (m + 1) * 256 ^ bytes.length := by
  induction bytes generalizing m with
  | nil => simp
  | cons b bytes ih =>
    have hb := b.toNat_lt
    calc (b :: bytes).foldl (fun n b => n * 256 + b.toNat) m
        < (m * 256 + b.toNat + 1) * 256 ^ bytes.length := ih _
      _ ≤ ((m + 1) * 256) * 256 ^ bytes.length := Nat.mul_le_mul_right _ (by omega)
      _ = (m + 1) * 256 ^ (b :: bytes).length := by rw [List.length_cons, Nat.pow_succ]; ring

/-- Bytes stand for a number that fits in them. -/
theorem ofBytes_lt (bytes : List UInt8) : ofBytes bytes < 256 ^ bytes.length := by
  simpa [ofBytes] using foldl_lt bytes 0

/-- The first byte counts the most. -/
theorem ofBytes_cons (b : UInt8) (bytes : List UInt8) :
    ofBytes (b :: bytes) = b.toNat * 256 ^ bytes.length + ofBytes bytes := by
  have hread : ∀ m, bytes.foldl (fun n b => n * 256 + b.toNat) m = m * 256 ^ bytes.length + ofBytes bytes := by
    unfold ofBytes
    induction bytes with
    | nil => simp
    | cons b bytes ih =>
      intro m
      rw [List.foldl_cons, List.foldl_cons, ih, ih (0 * 256 + b.toNat), List.length_cons, Nat.pow_succ]
      ring
  rw [ofBytes, List.foldl_cons, Nat.zero_mul, Nat.zero_add, hread]

/-- The bytes of a number do not show what does not fit. -/
theorem toBytes_add_mul (width n m : ℕ) : toBytes width (m * 256 ^ width + n) = toBytes width n := by
  induction width generalizing m with
  | zero => rfl
  | succ width ih =>
    have hpow : m * 256 ^ (width + 1) = m * 256 * 256 ^ width := by ring
    have hbyte : UInt8.ofNat (m * 256 + n / 256 ^ width) = UInt8.ofNat (n / 256 ^ width) := by
      rw [← UInt8.toNat_inj, UInt8.toNat_ofNat', UInt8.toNat_ofNat']
      omega
    rw [toBytes, toBytes, hpow, ih, Nat.add_comm (m * 256 * _), Nat.add_mul_div_right _ _ (Nat.pow_pos (by decide)),
      Nat.add_comm, hbyte]

/-- Bytes that are read are written back. -/
theorem toBytes_ofBytes (bytes : List UInt8) : toBytes bytes.length (ofBytes bytes) = bytes := by
  induction bytes with
  | nil => rfl
  | cons b bytes ih =>
    have hbyte : UInt8.ofNat (ofBytes (b :: bytes) / 256 ^ bytes.length) = b := by
      rw [ofBytes_cons, Nat.add_comm, Nat.add_mul_div_right _ _ (Nat.pow_pos (by decide)),
        Nat.div_eq_of_lt (ofBytes_lt bytes), Nat.zero_add, UInt8.ofNat_toNat]
    rw [List.length_cons, toBytes, hbyte, ofBytes_cons, toBytes_add_mul, ih]

end BigEndian
