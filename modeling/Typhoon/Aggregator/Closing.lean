import Typhoon.Aggregator.Occupancy

/-!
# What the vector of the circular queue holds

`push` appends to the vector and wraps only `end`, so after `n` accepted elements the vector has
length `n`, while `exec` reads the slot `closeSlot size n`, which stays below `size`. On the first
lap of the ring the two agree. From the `size`-th accepted element on they do not:

- `closes_right_iff`: `exec` returns the last accepted element exactly when fewer than `size` have
  been accepted, or the stale element that it reads happens to equal it;
- `ring_rep_iff`: the vector is a ring of `size` slots exactly until more than `size` elements have
  been accepted.
-/

namespace Typhoon.Aggregator

variable {α : Type*}

/-- The slot that `exec` reads after `n` accepted elements. -/
def closeSlot (size : ℤ) (n : ℕ) : ℕ := (max ((n : ℤ) % size - 1) 0).toNat

/-- On the first lap the slot is that of the last element. -/
theorem closeSlot_of_lt {size : ℤ} {n : ℕ} (hn : (n : ℤ) < size) : closeSlot size n = n - 1 := by
  unfold closeSlot
  rw [Int.emod_eq_of_lt (Int.natCast_nonneg n) hn]
  omega

/-- After the first lap the slot is that of an older element. -/
theorem closeSlot_lt_of_le {size : ℤ} (hs : 2 ≤ size) {n : ℕ} (hn : size ≤ n) :
    closeSlot size n < n - 1 := by
  have := Int.emod_lt_of_pos (n : ℤ) (show 0 < size by omega)
  unfold closeSlot
  omega

/-- The slot is one of the vector's as soon as there is an accepted element. -/
theorem closeSlot_lt_iff {size : ℤ} (hs : 2 ≤ size) (n : ℕ) : closeSlot size n < n ↔ 0 < n := by
  refine ⟨fun h => by omega, fun hpos => ?_⟩
  by_cases hn : (n : ℤ) < size
  · rw [closeSlot_of_lt hn]
    omega
  · have := closeSlot_lt_of_le hs (Int.not_lt.1 hn)
    omega

section Reachable

variable {size : ℤ} (hs : 1 ≤ size) (calls : List (Call α))
include hs

/-- The vector is the record of everything accepted. -/
theorem queue_eq_accepted : (history size calls).cque.queue = (history size calls).accepted := by
  have hr := history_represents hs calls
  rw [hr.queue_eq, hr.accepted_eq]

/-- The index that `exec` reads, by the number of accepted elements. -/
theorem closeIndex_eq :
    (history size calls).cque.closeIndex = closeSlot size (history size calls).accepted.length := by
  have hr := history_represents hs calls
  unfold CircularQueue.closeIndex closeSlot
  rw [hr.end_eq, hr.accepted_eq]

/-- What `exec` returns, by the accepted elements. -/
theorem exec_eq : (history size calls).cque.exec.1 =
    (history size calls).accepted[closeSlot size (history size calls).accepted.length]? := by
  unfold CircularQueue.exec
  rw [closeIndex_eq hs calls, queue_eq_accepted hs calls]

end Reachable

/-! ## The closing price -/

/-- Every `exec` of a run that has an accepted element before it returns the last one. -/
def ClosesRight (size : ℤ) (calls : List (Call α)) : Prop :=
  ∀ pre post, calls = pre ++ .exec :: post → (history size pre).accepted ≠ [] →
    (history size pre).cque.exec.1 = (history size pre).accepted.getLast?

/-- The closing price is the last accepted element in every `exec` of a run exactly when each `exec`
comes before the `size`-th accepted element, or finds in the slot that it reads an element equal to
the last accepted one. -/
theorem closes_right_iff {size : ℤ} (hs : 2 ≤ size) (calls : List (Call α)) :
    ClosesRight size calls ↔ ∀ pre post, calls = pre ++ .exec :: post →
      ((history size pre).accepted.length : ℤ) < size ∨
        (history size pre).accepted[closeSlot size (history size pre).accepted.length]? =
          (history size pre).accepted.getLast? := by
  unfold ClosesRight
  constructor
  · intro h pre post hcalls
    by_cases hnil : (history size pre).accepted = []
    · left
      rw [hnil, List.length_nil]
      omega
    · right
      rw [← exec_eq (by omega) pre]
      exact h pre post hcalls hnil
  · intro h pre post hcalls _
    rw [exec_eq (by omega) pre]
    -- On the first lap the slot is the last element's; later only the hypothesis helps.
    rcases h pre post hcalls with hlap | hsame
    · rw [closeSlot_of_lt hlap, List.getLast?_eq_getElem?]
    · exact hsame

/-- A queue of size two closes right with one trade and two intervals. -/
theorem closes_right_iff_two :
    ClosesRight 2 ([.push 10, .exec, .exec] : List (Call ℕ)) ↔ ∀ pre post,
      ([.push 10, .exec, .exec] : List (Call ℕ)) = pre ++ .exec :: post →
      ((history 2 pre).accepted.length : ℤ) < 2 ∨
        (history 2 pre).accepted[closeSlot 2 (history 2 pre).accepted.length]? =
          (history 2 pre).accepted.getLast? :=
  closes_right_iff (by decide) _

/-- A queue of size two, with a trade in each of two intervals: the second interval closes at the
first trade. -/
theorem not_closes_right_two :
    ¬ ClosesRight 2 ([.push 10, .exec, .push 20, .exec] : List (Call ℕ)) := by
  intro h
  have hexec := h [.push 10, .exec, .push 20] [] rfl (by decide)
  exact absurd hexec (by decide)

/-- When the accepted elements are distinct, no stale element can pass for the last one: the closing
prices of a run are right exactly when each `exec` comes on the first lap. -/
theorem closes_right_iff_first_lap {size : ℤ} (hs : 2 ≤ size) {calls : List (Call α)}
    (hnodup : (history size calls).accepted.Nodup) :
    ClosesRight size calls ↔ ∀ pre post, calls = pre ++ .exec :: post →
      ((history size pre).accepted.length : ℤ) < size := by
  unfold ClosesRight
  constructor
  · intro h pre post hcalls
    by_contra hlap
    have hacc : (history size pre).accepted ≠ [] := by
      intro hnil
      rw [hnil, List.length_nil] at hlap
      omega
    have hexec := h pre post hcalls hacc
    have hpre : (history size pre).accepted.Nodup := by
      rw [hcalls] at hnodup
      exact hnodup.sublist (accepted_isPrefix size pre _).sublist
    -- Past the first lap the slot is that of an older element, which is a different one.
    have hslot := closeSlot_lt_of_le hs (Int.not_lt.1 hlap)
    rw [exec_eq (by omega) pre, List.getLast?_eq_getElem?] at hexec
    have := (List.getElem?_inj (by omega) hpre).1 hexec
    omega
  · intro h pre post hcalls _
    rw [exec_eq (by omega) pre, closeSlot_of_lt (h pre post hcalls), List.getLast?_eq_getElem?]

/-! ## The ring representation -/

/-- The vector is a ring of `size` slots: it fits in the space reserved for it, and its slots from
`start` to `end - 1`, modulo `size`, hold what was accepted since the last `exec`, in order. -/
structure RingRep (size : ℤ) (h : History α) : Prop where
  /-- The vector holds at most `size` elements. -/
  length_le : (h.cque.queue.length : ℤ) ≤ size
  /-- The vector has not outgrown the space reserved at construction. -/
  length_le_reserved : (h.cque.queue.length : ℤ) ≤ h.cque.reserved
  /-- The live slots hold the elements accepted since the last `exec`. -/
  live : ∀ k : ℕ, (k : ℤ) < (h.cque.end_ - h.cque.start) % size →
    ∃ elem, h.cque.queue[((h.cque.start + k) % size).toNat]? = some elem ∧
      h.since[k]? = some elem

/-- While at most `size` elements have been accepted, each live slot is the place in the vector at
which its element was appended. -/
theorem live_of_length_le {size : ℤ} (hs : 1 ≤ size) (calls : List (Call α))
    (hle : ((history size calls).accepted.length : ℤ) ≤ size) (k : ℕ)
    (hk : k < (history size calls).since.length) :
    ∃ elem, (history size calls).cque.queue[(((history size calls).cque.start + k) % size).toNat]? =
      some elem ∧ (history size calls).since[k]? = some elem := by
  have hr := history_represents hs calls
  rw [hr.accepted_eq, Batch.length_contents] at hle
  rw [hr.since_eq] at hk ⊢
  -- Nothing has wrapped yet, so the slot modulo `size` is the place in the vector.
  have hslot : (((history size calls).cque.start + k) % size).toNat =
      (batch size calls).closed.length + k := by
    rw [hr.start_eq, Int.emod_add_emod, Int.emod_eq_of_lt (by omega) (by push_cast at hle; omega)]
    omega
  refine ⟨(batch size calls).pending[k], ?_, List.getElem?_eq_getElem hk⟩
  rw [hslot, hr.queue_eq, Batch.contents, List.getElem?_append_right (Nat.le_add_right _ _),
    Nat.add_sub_cancel_left, List.getElem?_eq_getElem hk]

/-- Every state of a run is a ring of `size` slots exactly when the run accepts at most `size`
elements. -/
theorem ring_rep_iff {size : ℤ} (hs : 2 ≤ size) (calls : List (Call α)) :
    (∀ pre, pre <+: calls → RingRep size (history size pre)) ↔
      ((history size calls).accepted.length : ℤ) ≤ size := by
  have hs1 : 1 ≤ size := by omega
  constructor
  · intro h
    -- The vector holds everything accepted, so it must fit at the end of the run.
    have hfits := (h calls (List.prefix_refl _)).length_le
    rwa [queue_eq_accepted hs1 calls] at hfits
  · rintro hle pre ⟨post, rfl⟩
    have hpre : ((history size pre).accepted.length : ℤ) ≤ size := by
      have := (accepted_isPrefix size pre post).length_le
      omega
    refine ⟨?_, ?_, ?_⟩
    · rwa [queue_eq_accepted hs1 pre]
    · rwa [queue_eq_accepted hs1 pre, (history_represents hs1 pre).reserved_eq]
    · intro k hk
      rw [(occupancy_law hs1 pre).occupancy] at hk
      exact live_of_length_le hs1 pre hpre k (by exact_mod_cast hk)

/-- A queue of size two that has accepted two elements is still a ring. -/
theorem ring_rep_iff_two :
    (∀ pre, pre <+: ([.push 10, .exec, .push 20] : List (Call ℕ)) → RingRep 2 (history 2 pre)) ↔
      ((history 2 ([.push 10, .exec, .push 20] : List (Call ℕ))).accepted.length : ℤ) ≤ 2 :=
  ring_rep_iff (by decide) _

/-- A third accepted element does not fit in a queue of size two. -/
theorem not_ring_rep_two :
    ¬ RingRep 2 (history 2 ([.push 10, .exec, .push 20, .exec, .push 30] : List (Call ℕ))) := by
  intro h
  exact absurd h.length_le (by decide)

end Typhoon.Aggregator
