import Mathlib.Data.Int.CardIntervalMod
import Mathlib.Data.Int.ConditionallyCompleteOrder
import Mathlib.Tactic.Common

/-!
# The multiples of an interval

`Grid.next i n` rounds `n` to the next multiple of `i`, and `Grid.progression i F k` lists `k`
instants from `F` on, an interval `i` apart. On a progression that starts at a multiple of `i`, an
instant is listed exactly when it is a multiple of `i` in the range that the progression covers
(`mem_progression`), so two progressions with one interval can be compared as ranges.
-/

namespace Grid

/-- The first multiple of `i` past `n`. -/
def next (i n : ℤ) : ℤ := n - n % i + i

/-- The next multiple is one past the quotient. -/
theorem next_eq (i n : ℤ) : next i n = (n / i + 1) * i := by
  have h := Int.emod_add_mul_ediv n i
  calc n - n % i + i = i * (n / i) + i := by linarith
    _ = (n / i + 1) * i := by ring

/-- The next multiple is a multiple. -/
theorem dvd_next (i n : ℤ) : i ∣ next i n := by
  rw [next_eq]
  exact dvd_mul_left i _

/-- The rounding moves strictly past `n`. -/
theorem lt_next {i : ℤ} (hi : 0 < i) (n : ℤ) : n < next i n := by
  have := Int.emod_lt_of_pos n hi
  unfold next
  omega

/-- A multiple of the interval is at or past the next one exactly when it is past `n`. -/
theorem next_le_iff {i : ℤ} (hi : 0 < i) (n : ℤ) {m : ℤ} (hm : i ∣ m) : next i n ≤ m ↔ n < m := by
  refine ⟨fun h => lt_of_lt_of_le (lt_next hi n) h, fun h => ?_⟩
  obtain ⟨c, rfl⟩ := hm
  rw [next_eq, mul_comm i c]
  have hc : n / i < c := Int.ediv_lt_of_lt_mul hi (by rwa [mul_comm c i])
  exact mul_le_mul_of_nonneg_right hc hi.le

/-- The instants from `F` on, an interval `i` apart. -/
def progression (i F : ℤ) : ℕ → List ℤ
  | 0 => []
  | k + 1 => F :: progression i (F + i) k

/-- A progression with one more instant ends with that instant. -/
theorem progression_succ (i F : ℤ) (k : ℕ) :
    progression i F (k + 1) = progression i F k ++ [F + k * i] := by
  induction k generalizing F with
  | zero => simp [progression]
  | succ k ih =>
    rw [progression, ih, progression, List.cons_append]
    congr 3
    push_cast
    ring

/-- A progression has as many instants as it is asked for. -/
@[simp] theorem length_progression (i F : ℤ) (k : ℕ) : (progression i F k).length = k := by
  induction k generalizing F with
  | zero => rfl
  | succ k ih => rw [progression, List.length_cons, ih]

/-- A progression goes on where a shorter one ends. -/
theorem progression_add (i F : ℤ) (k l : ℕ) :
    progression i F (k + l) = progression i F k ++ progression i (F + k * i) l := by
  induction l with
  | zero => simp [progression]
  | succ l ih =>
    rw [← Nat.add_assoc, progression_succ, ih, progression_succ, List.append_assoc]
    congr 3
    push_cast
    ring

/-- A progression begins at its first instant. -/
theorem head?_progression {i F T : ℤ} {k : ℕ} (h : T ∈ (progression i F k).head?) : T = F := by
  cases k with
  | zero => cases h
  | succ k => exact (Option.some.inj h).symm

/-- Each instant of a progression is an interval after the one before. -/
theorem progression_isChain (i F : ℤ) (k : ℕ) :
    (progression i F k).IsChain fun T T' => T' = T + i := by
  induction k generalizing F with
  | zero => exact List.IsChain.nil
  | succ k ih => exact List.isChain_cons.2 ⟨fun T hT => head?_progression hT, ih (F + i)⟩

/-- On the grid of `i`, a progression lists the multiples in the range that it covers. -/
theorem mem_progression {i F : ℤ} (hi : 0 < i) (hF : i ∣ F) (k : ℕ) (T : ℤ) :
    T ∈ progression i F k ↔ i ∣ T ∧ F ≤ T ∧ T < F + k * i := by
  induction k with
  | zero =>
    simp only [progression, List.not_mem_nil, Nat.cast_zero, zero_mul, add_zero, false_iff]
    omega
  | succ k ih =>
    rw [progression_succ, List.mem_append, ih, List.mem_singleton]
    have hk : 0 ≤ (k : ℤ) * i := mul_nonneg (Int.natCast_nonneg k) hi.le
    have hend : F + ((k + 1 : ℕ) : ℤ) * i = F + k * i + i := by push_cast; ring
    rw [hend]
    constructor
    · rintro (⟨hd, h1, h2⟩ | rfl)
      · exact ⟨hd, h1, by omega⟩
      · exact ⟨dvd_add hF (dvd_mul_left i _), by omega, by omega⟩
    · rintro ⟨hd, h1, h2⟩
      by_cases hT : T < F + k * i
      · exact .inl ⟨hd, h1, hT⟩
      -- The only multiple of `i` in the last interval is its start.
      · have hstep : i ∣ T - (F + k * i) := dvd_sub hd (dvd_add hF (dvd_mul_left i _))
        have hzero : T - (F + k * i) = 0 :=
          Int.eq_zero_of_dvd_of_nonneg_of_lt (by omega) (by omega) hstep
        exact .inr (by omega)

/-- A progression stays in the range that it covers. -/
theorem range_of_mem_progression {i F : ℤ} (hi : 0 < i) {k : ℕ} {T : ℤ}
    (hT : T ∈ progression i F k) : F ≤ T ∧ T < F + k * i := by
  induction k generalizing F with
  | zero => exact absurd hT List.not_mem_nil
  | succ k ih =>
    have hk : 0 ≤ (k : ℤ) * i := mul_nonneg (Int.natCast_nonneg k) hi.le
    have hend : F + ((k + 1 : ℕ) : ℤ) * i = F + i + k * i := by push_cast; ring
    rw [hend]
    rcases List.mem_cons.1 hT with rfl | hT
    · omega
    · have := ih hT
      omega

/-- The instants of a progression increase. -/
theorem progression_pairwise {i : ℤ} (hi : 0 < i) (F : ℤ) (k : ℕ) :
    (progression i F k).Pairwise (· < ·) := by
  induction k generalizing F with
  | zero => exact List.Pairwise.nil
  | succ k ih =>
    refine List.pairwise_cons.2 ⟨fun T hT => ?_, ih (F + i)⟩
    have := range_of_mem_progression hi hT
    omega

/-- There are `b / i - a / i` multiples of `i` in `(a, b]`. -/
theorem card_multiples {i : ℤ} (hi : 0 < i) {a b : ℤ} (hab : a ≤ b) :
    (((Finset.Ioc a b).filter (i ∣ ·)).card : ℤ) = b / i - a / i := by
  have hle : a / i ≤ b / i := Int.ediv_le_ediv hi hab
  have hcard := Int.Ioc_filter_dvd_card a b hi
  lift i to ℕ using hi.le
  rw [Int.cast_natCast, Rat.floor_intCast_div_natCast, Rat.floor_intCast_div_natCast] at hcard
  rw [hcard, max_eq_left (by omega)]

/-- There are `|a / i - b / i|` multiples of `i` between two instants, past the earlier one. -/
theorem card_multiples_between {i : ℤ} (hi : 0 < i) (a b : ℤ) :
    (((Finset.Ioc (min a b) (max a b)).filter (i ∣ ·)).card : ℤ) = |a / i - b / i| := by
  rw [card_multiples hi min_le_max]
  rcases le_total a b with h | h
  · have hle : a / i ≤ b / i := Int.ediv_le_ediv hi h
    rw [min_eq_left h, max_eq_right h, abs_sub_comm, abs_of_nonneg (by omega)]
  · have hle : b / i ≤ a / i := Int.ediv_le_ediv hi h
    rw [min_eq_right h, max_eq_left h, abs_of_nonneg (by omega)]

end Grid
