import Mathlib.Data.Finset.Order
import Typhoon.Pipeline.Law

/-!
# What the aligner keeps for good

Nothing removes an entry of `tickMap` but the other tick of its label. `stuck` collects the labels of a
state whose entries no steps remove; they are known from the intervals and the first clock readings
(`mem_stuck`). With one interval they are at most the multiples between the two clock readings. With
two different intervals there is no bound to them (`leak_iff`).
-/

namespace Typhoon.Pipeline

open Aggregator Aligner

variable {Price : Type*} [Zero Price]

open Classical in
/-- The keys of `tickMap` that are still there whatever steps are taken from a state. -/
noncomputable def stuck (DEBUG : Bool) (i₁ i₂ : ℤ) (garbage₁ garbage₂ : ℤ → ℤ × Price)
    (s : State Price) : Finset ℤ :=
  s.receiver.keys.filter fun T => ∀ evs s',
    (pipeline DEBUG i₁ i₂ garbage₁ garbage₂).machine.run s evs = some s' → T ∈ s'.receiver

/-- Past any number there are as many multiples of `a` that are no multiples of `b` as wanted, unless
`b` divides `a`. -/
theorem exists_multiples {a b : ℤ} (ha : 0 < a) (hb : 0 < b) (hab : ¬ b ∣ a) {n : ℤ} (hn : 0 ≤ n)
    (N : ℕ) : ∃ S : Finset ℤ, S.card = N ∧ ∀ T ∈ S, a ∣ T ∧ ¬ b ∣ T ∧ n < T := by
  -- One more than a multiple of `b` times `a` leaves what `a` leaves.
  refine ⟨(Finset.range N).image fun c : ℕ => a * (b * (n + c) + 1), ?_, ?_⟩
  · rw [Finset.card_image_of_injective, Finset.card_range]
    intro c d h
    have h' := mul_left_cancel₀ ha.ne' h
    have hbc : b * (n + c) = b * (n + d) := by omega
    have := mul_left_cancel₀ hb.ne' hbc
    omega
  · intro T hT
    obtain ⟨c, -, rfl⟩ := Finset.mem_image.1 hT
    refine ⟨dvd_mul_right a _, fun hd => hab ?_, ?_⟩
    · have hsplit : a * (b * (n + c) + 1) = b * (a * (n + c)) + a := by ring
      rw [hsplit] at hd
      exact (dvd_add_right (dvd_mul_right b _)).1 hd
    · have hc : n ≤ n + c := by omega
      calc n ≤ n + c := hc
        _ ≤ b * (n + c) := le_mul_of_one_le_left (by omega) hb
        _ < b * (n + c) + 1 := by omega
        _ ≤ a * (b * (n + c) + 1) := le_mul_of_one_le_left (by positivity) ha

/-- Two intervals are the same when each divides the other. -/
theorem not_dvd_of_ne {a b : ℤ} (ha : 0 < a) (hb : 0 < b) (h : a ≠ b) : ¬ a ∣ b ∨ ¬ b ∣ a := by
  by_contra hdvd
  rw [not_or, not_not, not_not] at hdvd
  exact h (Int.dvd_antisymm ha.le hb.le hdvd.1 hdvd.2)

variable {DEBUG : Bool} {size n₁ n₂ i₁ i₂ : ℤ} {garbage₁ garbage₂ : ℤ → ℤ × Price}
  {s₀ s : State Price} {evs : List (Step Price)}

/-- The keys that a state of a run keeps for good are those that are no multiple of both intervals past
both clock readings. -/
theorem mem_stuck (hi₁ : 0 < i₁) (hi₂ : 0 < i₂) (hn₁ : 0 ≤ n₁) (hn₂ : 0 ≤ n₂)
    (h0 : start size n₁ n₂ i₁ i₂ = some s₀)
    (hrun : (pipeline DEBUG i₁ i₂ garbage₁ garbage₂).machine.run s₀ evs = some s) {T : ℤ} :
    T ∈ stuck DEBUG i₁ i₂ garbage₁ garbage₂ s ↔
      T ∈ s.receiver ∧ ¬ (i₁ ∣ T ∧ i₂ ∣ T ∧ max n₁ n₂ < T) := by
  classical
  rw [stuck, Finset.mem_filter, Finmap.mem_keys]
  exact and_congr_right fun hmem => forall_mem_iff hi₁ hi₂ hn₁ hn₂ h0 hrun hmem

/-- With one interval, what a state keeps for good lies between the two clock readings. -/
theorem card_stuck_le {i : ℤ} (hi : 0 < i) (hn₁ : 0 ≤ n₁) (hn₂ : 0 ≤ n₂)
    (h0 : start size n₁ n₂ i i = some s₀)
    (hrun : (pipeline DEBUG i i garbage₁ garbage₂).machine.run s₀ evs = some s) :
    ((stuck DEBUG i i garbage₁ garbage₂ s).card : ℤ) ≤ |n₁ / i - n₂ / i| := by
  obtain ⟨B, M, l, h⟩ := delivered_of_start h0 hrun
  obtain ⟨hB, hM⟩ := streams_of_delivered hi hi hn₁ hn₂ h0 hrun h
  have hlaw := law_of_delivered hi hi hn₁ hn₂ h0 hrun h
  have hsub : stuck DEBUG i i garbage₁ garbage₂ s ⊆
      (Finset.Ioc (min n₁ n₂) (max n₁ n₂)).filter (i ∣ ·) := by
    intro T hT
    rw [mem_stuck hi hi hn₁ hn₂ h0 hrun, hlaw.mem_tickMap, hB.mem_labels hi, hM.mem_labels hi] at hT
    rw [Finset.mem_filter, Finset.mem_Ioc]
    obtain ⟨⟨⟨hd, hlt, -⟩, -⟩ | ⟨-, hd, hlt, -⟩, hnot⟩ := hT
    · exact ⟨⟨by omega, not_lt.1 fun hmax => hnot ⟨hd, hd, hmax⟩⟩, hd⟩
    · exact ⟨⟨by omega, not_lt.1 fun hmax => hnot ⟨hd, hd, hmax⟩⟩, hd⟩
  rw [← Grid.card_multiples_between hi]
  exact_mod_cast Finset.card_le_card hsub

section Leak

variable (hi₁ : 0 < i₁) (hi₂ : 0 < i₂) (hn₁ : 0 ≤ n₁) (hn₂ : 0 ≤ n₂)
  (h0 : start size n₁ n₂ i₁ i₂ = some s₀)
include hi₁ hi₂ hn₁ hn₂ h0

/-- What arrives from one aggregator alone is kept for good, so labels that only one can send pile up. -/
theorem exists_stuck_of_labels (S : Finset ℤ)
    (hS : (∀ T ∈ S, i₁ ∣ T ∧ ¬ i₂ ∣ T ∧ n₁ < T) ∨ ∀ T ∈ S, i₂ ∣ T ∧ ¬ i₁ ∣ T ∧ n₂ < T) :
    ∃ evs s, (pipeline DEBUG i₁ i₂ garbage₁ garbage₂).machine.run s₀ evs = some s ∧
      S ⊆ stuck DEBUG i₁ i₂ garbage₁ garbage₂ s := by
  obtain ⟨H, hH⟩ := S.exists_le
  have hstart : (pipeline DEBUG i₁ i₂ garbage₁ garbage₂).machine.run s₀ [] = some s₀ := rfl
  obtain ⟨evs, s, B, M, hrun, hlaw, hB, hM, hend₁, hend₂⟩ :=
    exists_past hi₁ hi₂ hn₁ hn₂ h0 hstart H
  refine ⟨evs, s, hrun, fun T hT => ?_⟩
  have hTH := hH T hT
  rw [mem_stuck hi₁ hi₂ hn₁ hn₂ h0 hrun, hlaw.mem_tickMap, hB.mem_labels hi₁, hM.mem_labels hi₂]
  rcases hS with hS | hS
  · obtain ⟨hd, hnd, hlt⟩ := hS T hT
    exact ⟨.inl ⟨⟨hd, hlt, by omega⟩, fun h => hnd h.1⟩, fun h => hnd h.2.1⟩
  · obtain ⟨hd, hnd, hlt⟩ := hS T hT
    exact ⟨.inr ⟨fun h => hnd h.1, hd, hlt, by omega⟩, fun h => hnd h.1⟩

end Leak

/-- The number of entries that the aligner keeps for good is bounded, over all states of all runs,
exactly when the two aggregators have the same interval. -/
theorem leak_iff (hi₁ : 0 < i₁) (hi₂ : 0 < i₂) (hn₁ : 0 ≤ n₁) (hn₂ : 0 ≤ n₂)
    (h0 : start size n₁ n₂ i₁ i₂ = some s₀) :
    (∃ bound : ℕ, ∀ evs s, (pipeline DEBUG i₁ i₂ garbage₁ garbage₂).machine.run s₀ evs = some s →
      (stuck DEBUG i₁ i₂ garbage₁ garbage₂ s).card ≤ bound) ↔ i₁ = i₂ := by
  constructor
  · rintro ⟨bound, hbound⟩
    by_contra hne
    obtain ⟨S, hcard, hS⟩ : ∃ S : Finset ℤ, S.card = bound + 1 ∧
        ((∀ T ∈ S, i₁ ∣ T ∧ ¬ i₂ ∣ T ∧ n₁ < T) ∨ ∀ T ∈ S, i₂ ∣ T ∧ ¬ i₁ ∣ T ∧ n₂ < T) := by
      rcases not_dvd_of_ne hi₁ hi₂ hne with hnd | hnd
      · obtain ⟨S, hcard, hS⟩ := exists_multiples hi₂ hi₁ hnd hn₂ (bound + 1)
        exact ⟨S, hcard, .inr hS⟩
      · obtain ⟨S, hcard, hS⟩ := exists_multiples hi₁ hi₂ hnd hn₁ (bound + 1)
        exact ⟨S, hcard, .inl hS⟩
    obtain ⟨evs, s, hrun, hsub⟩ := exists_stuck_of_labels hi₁ hi₂ hn₁ hn₂ h0 S hS
    have hle := Finset.card_le_card hsub
    have := hbound evs s hrun
    omega
  · rintro rfl
    refine ⟨|n₁ / i₁ - n₂ / i₁|.toNat, fun evs s hrun => ?_⟩
    have := card_stuck_le hi₁ hn₁ hn₂ h0 hrun
    omega

/-- Aggregators with intervals of one and of two seconds. -/
theorem leak_iff_two :
    ∃ s₀ : State ℤ, start 1000 0 0 1000 2000 = some s₀ ∧
      ((∃ bound : ℕ, ∀ evs s, (pipeline true 1000 2000 (fun T => (T, 7))
        fun T => (T, 9)).machine.run s₀ evs = some s →
          (stuck true 1000 2000 (fun T => (T, 7)) (fun T => (T, 9)) s).card ≤ bound) ↔
        (1000 : ℤ) = 2000) := by
  obtain ⟨s₀, h0⟩ : ∃ s₀ : State ℤ, start 1000 0 0 1000 2000 = some s₀ := ⟨_, rfl⟩
  exact ⟨s₀, h0, leak_iff (by decide) (by decide) (by decide) (by decide) h0⟩

end Typhoon.Pipeline
