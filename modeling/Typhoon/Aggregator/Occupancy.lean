import Typhoon.Library.Batch
import Typhoon.Aggregator.CircularQueue

/-!
# Occupancy of the circular queue

What the ring indices of `CircularQueue` are for: between two `exec` calls the queue keeps a bounded
batch of at most `size - 1` elements, and `start` and `end` count, modulo `size`, what had been
accepted at the last `exec` and what has been accepted by now. `Represents` states this against the
bounded batches of `Library/Batch.lean`. It holds in every reachable state (`history_represents`),
from the constructor on (`construct_represents`), because `push` and `exec` carry it to the push and
the closing of the batch (`push_represents`, `exec_represents`).

The vector is the other half of `Represents`, and the reason for the results of `Closing.lean`:
it is the list of everything ever accepted, and not a ring of `size` slots.
-/

namespace Typhoon.Aggregator

variable {α : Type*}

/-- The number of elements that a ring of `size` slots can hold, one slot staying empty. -/
def capacity (size : ℤ) : ℕ := (size - 1).toNat

/-- A queue and its records carry a batch: the vector holds the whole contents, `start` and `end`
are the counts at the last closing and by now, modulo `size`. -/
structure Represents (size : ℤ) (h : History α) (b : Batch α (capacity size)) : Prop where
  size_eq : h.cque.size = size
  reserved_eq : h.cque.reserved = size
  queue_eq : h.cque.queue = b.contents
  start_eq : h.cque.start = (b.closed.length : ℤ) % size
  end_eq : h.cque.end_ = (b.contents.length : ℤ) % size
  accepted_eq : h.accepted = b.contents
  since_eq : h.since = b.pending

/-- The batch of a run: a push for each `push`, a closing for each `exec`. -/
def batchMachine (cap : ℕ) : Machine (Batch α cap) (Call α) Unit where
  step b
    | .push elem => (b.push elem, ())
    | .exec => (b.close, ())

/-- The batch after a list of calls. -/
def batch (size : ℤ) (calls : List (Call α)) : Batch α (capacity size) :=
  (batchMachine (capacity size)).state .empty calls

/-- The constructor's queue carries the empty batch. -/
theorem construct_represents (size : ℤ) :
    Represents size (History.construct size : History α) .empty := by
  refine ⟨rfl, rfl, rfl, ?_, ?_, rfl, rfl⟩
  · exact (Int.zero_emod size).symm
  · exact (Int.zero_emod size).symm

section Step

variable {size : ℤ} (hs : 1 ≤ size) {h : History α} {b : Batch α (capacity size)}
  (hr : Represents size h b)
include hs hr

/-- `push` computes the index after `end` as the next count modulo `size`. -/
theorem next_end_eq :
    (h.cque.end_ + 1).tmod h.cque.size = ((b.contents.length : ℤ) + 1) % size := by
  -- The C++ `%` truncates, which makes no difference on a nonnegative index.
  have hpos : 0 ≤ h.cque.end_ + 1 := by
    rw [hr.end_eq]
    have := Int.emod_nonneg (b.contents.length : ℤ) (show size ≠ 0 by omega)
    omega
  calc (h.cque.end_ + 1).tmod h.cque.size = (h.cque.end_ + 1) % size := by
        rw [Int.tmod_eq_emod_of_nonneg hpos, hr.size_eq]
    _ = ((b.contents.length : ℤ) + 1) % size := by rw [hr.end_eq, Int.emod_add_emod]

/-- A push is accepted exactly when the batch has room: the slot after `end` is `start` exactly when
`size - 1` elements are pending. -/
theorem accepts_iff : h.cque.accepts = true ↔ b.pending.length < capacity size := by
  have hle := b.pending_le
  unfold capacity at hle ⊢
  have hcount : (b.contents.length : ℤ) + 1 - b.closed.length = b.pending.length + 1 := by
    rw [b.length_contents]
    push_cast
    omega
  -- The two counts differ by at least one and at most `size`, so they agree modulo `size` only there.
  have hfull : ((b.contents.length : ℤ) + 1) % size = (b.closed.length : ℤ) % size ↔
      (b.pending.length : ℤ) + 1 = size := by
    rw [Int.emod_eq_emod_iff_emod_sub_eq_zero, hcount, ← Int.dvd_iff_emod_eq_zero]
    constructor
    · intro hd
      have := Int.le_of_dvd (by omega) hd
      omega
    · intro he
      exact ⟨1, by omega⟩
  unfold CircularQueue.accepts
  rw [next_end_eq hs hr, hr.start_eq, bne_iff_ne, ne_eq, hfull]
  omega

/-- `push` carries the batch to its push. -/
theorem push_represents (elem : α) :
    Represents size (History.machine.step h (.push elem)).1 (b.push elem) := by
  have hiff := accepts_iff hs hr
  -- The queue accepts exactly when the batch has room, so both take the same branch.
  by_cases hroom : b.pending.length < capacity size
  · have ha : h.cque.accepts = true := hiff.2 hroom
    obtain ⟨hc, hp⟩ := Batch.push_of_lt hroom elem
    have hcont := Batch.contents_push_of_lt hroom elem
    have hlen : ((b.push elem).contents.length : ℤ) = b.contents.length + 1 := by
      rw [hcont, List.length_append, List.length_singleton]
      push_cast
      rfl
    simp only [History.machine, CircularQueue.push, ha, if_true]
    refine ⟨hr.size_eq, hr.reserved_eq, ?_, ?_, ?_, ?_, ?_⟩
    · rw [hcont, ← hr.queue_eq]
    · rw [hc]; exact hr.start_eq
    · rw [hlen]; exact next_end_eq hs hr
    · rw [hcont, ← hr.accepted_eq]
    · rw [hp, ← hr.since_eq]
  · have ha : h.cque.accepts = false := Bool.eq_false_iff.2 fun ha => hroom (hiff.1 ha)
    rw [Batch.push_of_full hroom]
    simp only [History.machine, CircularQueue.push, ha, Bool.false_eq_true, if_false,
      List.append_nil]
    exact hr

end Step

/-- `exec` carries the batch to its closing. -/
theorem exec_represents {size : ℤ} {h : History α} {b : Batch α (capacity size)}
    (hr : Represents size h b) :
    Represents size (History.machine.step h .exec).1 b.close := by
  refine ⟨hr.size_eq, hr.reserved_eq, ?_, ?_, ?_, ?_, rfl⟩
  · rw [Batch.contents_close]; exact hr.queue_eq
  · rw [Batch.closed_close]; exact hr.end_eq
  · rw [Batch.contents_close]; exact hr.end_eq
  · rw [Batch.contents_close]; exact hr.accepted_eq

/-- Every reachable queue carries the batch of its run. -/
theorem history_represents {size : ℤ} (hs : 1 ≤ size) (calls : List (Call α)) :
    Represents size (history size calls) (batch size calls) := by
  refine Machine.simulation _ _ (Represents size) ?_ _ _ (construct_represents size) calls
  intro h b call hr
  cases call with
  | push elem => exact push_represents hs hr elem
  | exec => exact exec_represents hr

/-- A run that pushes elements one after another pushes them onto the batch. -/
theorem batchMachine_state_push {cap : ℕ} (b : Batch α cap) (elems : List α) :
    (batchMachine cap).state b (elems.map .push) = elems.foldl Batch.push b := by
  induction elems generalizing b with
  | nil => rfl
  | cons elem elems ih => exact ih (b.push elem)

/-- After an `exec`, the vector grows by the first `size - 1` of the elements pushed. -/
theorem queue_exec_pushes {size : ℤ} (hs : 1 ≤ size) (calls : List (Call α)) (elems : List α) :
    (history size (calls ++ .exec :: elems.map .push)).cque.queue =
      (history size calls).cque.queue ++ elems.take (capacity size) := by
  rw [(history_represents hs _).queue_eq, (history_represents hs calls).queue_eq]
  unfold batch
  rw [Machine.state_append, Machine.state_cons, batchMachine_state_push,
    Batch.contents_foldl_push]
  simp [batchMachine]

/-- After the constructor, the vector takes the first `size - 1` of the elements pushed. -/
theorem queue_construct_pushes {size : ℤ} (hs : 1 ≤ size) (elems : List α) :
    (history size (elems.map .push)).cque.queue = elems.take (capacity size) := by
  rw [(history_represents hs _).queue_eq]
  unfold batch
  rw [batchMachine_state_push, Batch.contents_foldl_push]
  simp [Batch.empty, Batch.contents]

/-- The occupancy and drop law of the queue after a list of calls. -/
structure OccupancyLaw (size : ℤ) (calls : List (Call α)) : Prop where
  /-- `start` is an index of the ring. -/
  start_range : 0 ≤ (history size calls).cque.start ∧ (history size calls).cque.start < size
  /-- `end` is an index of the ring. -/
  end_range : 0 ≤ (history size calls).cque.end_ ∧ (history size calls).cque.end_ < size
  /-- `end + 1` is an `int` whenever `size` is. -/
  end_succ_le : ∀ INT_MAX : ℤ, size ≤ INT_MAX → (history size calls).cque.end_ + 1 ≤ INT_MAX
  /-- The indices count what was accepted since the last `exec`. -/
  occupancy : ((history size calls).cque.end_ - (history size calls).cque.start) % size =
    (history size calls).since.length
  /-- At most `size - 1` elements are accepted between two calls of `exec`. -/
  since_le : ((history size calls).since.length : ℤ) ≤ size - 1
  /-- A `push` is accepted exactly while fewer than `size - 1` have been. -/
  accepts_iff : (history size calls).cque.accepts = true ↔
    ((history size calls).since.length : ℤ) < size - 1
  /-- Of the elements pushed after an `exec`, the first `size - 1` are kept. -/
  kept : ∀ elems : List α, (history size (calls ++ .exec :: elems.map .push)).cque.queue =
    (history size calls).cque.queue ++ elems.take (size - 1).toNat
  /-- Of the elements pushed after the constructor, the first `size - 1` are kept. -/
  kept_first : ∀ elems : List α,
    (history size (elems.map .push)).cque.queue = elems.take (size - 1).toNat

/-- The occupancy and drop law holds after every list of calls, at every size from one on. -/
theorem occupancy_law {size : ℤ} (hs : 1 ≤ size) (calls : List (Call α)) :
    OccupancyLaw size calls := by
  have hr := history_represents hs calls
  have hne : size ≠ 0 := by omega
  have hpos : 0 < size := by omega
  have hstart : 0 ≤ (history size calls).cque.start ∧ (history size calls).cque.start < size := by
    rw [hr.start_eq]
    exact ⟨Int.emod_nonneg _ hne, Int.emod_lt_of_pos _ hpos⟩
  have hend : 0 ≤ (history size calls).cque.end_ ∧ (history size calls).cque.end_ < size := by
    rw [hr.end_eq]
    exact ⟨Int.emod_nonneg _ hne, Int.emod_lt_of_pos _ hpos⟩
  have hle : ((history size calls).since.length : ℤ) ≤ size - 1 := by
    have := (batch size calls).pending_le
    rw [hr.since_eq]
    unfold capacity at this
    omega
  refine ⟨hstart, hend, fun _ hmax => by omega, ?_, hle, ?_, queue_exec_pushes hs calls,
    queue_construct_pushes hs⟩
  -- The indices differ by what is pending, which is below `size`.
  · have hcount : ((batch size calls).contents.length : ℤ) - (batch size calls).closed.length =
        (history size calls).since.length := by
      rw [hr.since_eq, Batch.length_contents]
      push_cast
      omega
    calc ((history size calls).cque.end_ - (history size calls).cque.start) % size
        = (((batch size calls).contents.length : ℤ) - (batch size calls).closed.length) % size := by
          rw [hr.end_eq, hr.start_eq, ← Int.sub_emod]
      _ = (history size calls).since.length := by
          rw [hcount, Int.emod_eq_of_lt (by omega) (by omega)]
  · rw [accepts_iff hs hr, hr.since_eq]
    unfold capacity
    omega

/-- Three pushes and an `exec` on a queue of size three: two are kept, and the next interval starts
at slot two. -/
theorem occupancy_law_three :
    OccupancyLaw 3 ([.push 10, .push 20, .push 30, .exec, .push 40] : List (Call ℕ)) :=
  occupancy_law (by decide) _

end Typhoon.Aggregator
