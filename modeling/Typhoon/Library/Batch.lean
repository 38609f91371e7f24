import Mathlib.Data.List.Basic
import Mathlib.Tactic.Common

/-!
# Bounded batches

A `Batch` collects elements between two closings and keeps at most `cap` of them: what is pushed on
a full batch is dropped. Its record of everything that it ever kept is `contents`. The bound is a
field, so a batch that holds too much cannot be built.
-/

/-- A batch under way, after the batches already closed. -/
structure Batch (α : Type*) (cap : ℕ) where
  /-- What the batches already closed kept, oldest first. -/
  closed : List α
  /-- What the batch under way keeps, oldest first. -/
  pending : List α
  /-- The batch under way is within its capacity. -/
  pending_le : pending.length ≤ cap

namespace Batch

variable {α : Type*} {cap : ℕ}

/-- Nothing pushed yet. -/
def empty : Batch α cap := ⟨[], [], Nat.zero_le _⟩

/-- Everything kept so far, oldest first. -/
def contents (b : Batch α cap) : List α := b.closed ++ b.pending

/-- Keep `x`, unless the batch is full. -/
def push (b : Batch α cap) (x : α) : Batch α cap :=
  if h : b.pending.length < cap then
    ⟨b.closed, b.pending ++ [x], by rw [List.length_append]; exact h⟩
  else b

/-- Close the batch under way, and start an empty one. -/
def close (b : Batch α cap) : Batch α cap := ⟨b.contents, [], Nat.zero_le _⟩

/-- Closing keeps everything. -/
@[simp] theorem contents_close (b : Batch α cap) : b.close.contents = b.contents :=
  List.append_nil _

/-- Nothing is pending after a closing. -/
@[simp] theorem pending_close (b : Batch α cap) : b.close.pending = [] := rfl

/-- Everything is in closed batches after a closing. -/
@[simp] theorem closed_close (b : Batch α cap) : b.close.closed = b.contents := rfl

/-- What is kept so far splits at the last closing. -/
theorem length_contents (b : Batch α cap) :
    b.contents.length = b.closed.length + b.pending.length :=
  List.length_append

/-- A batch with room keeps what is pushed. -/
theorem push_of_lt {b : Batch α cap} (h : b.pending.length < cap) (x : α) :
    (b.push x).closed = b.closed ∧ (b.push x).pending = b.pending ++ [x] := by
  simp [push, h]

/-- A batch with room adds what is pushed to its contents. -/
theorem contents_push_of_lt {b : Batch α cap} (h : b.pending.length < cap) (x : α) :
    (b.push x).contents = b.contents ++ [x] := by
  obtain ⟨hc, hp⟩ := push_of_lt h x
  rw [contents, contents, hc, hp, List.append_assoc]

/-- A full batch drops what is pushed. -/
theorem push_of_full {b : Batch α cap} (h : ¬ b.pending.length < cap) (x : α) : b.push x = b := by
  simp [push, h]

/-- Of the elements pushed one after another, a batch keeps as many as it has room for, the first
ones. -/
theorem contents_foldl_push (b : Batch α cap) (xs : List α) :
    (xs.foldl push b).contents = b.contents ++ xs.take (cap - b.pending.length) := by
  induction xs generalizing b with
  | nil => simp
  | cons x xs ih =>
    rw [List.foldl_cons, ih]
    -- A push that is kept takes up one place of the room.
    by_cases h : b.pending.length < cap
    · have hroom : cap - b.pending.length = (cap - (b.push x).pending.length) + 1 := by
        rw [(push_of_lt h x).2, List.length_append, List.length_singleton]
        omega
      rw [contents_push_of_lt h, hroom, List.take_succ_cons, List.append_assoc,
        List.singleton_append]
    · have hroom : cap - b.pending.length = 0 := by omega
      rw [push_of_full h, hroom, List.take_zero, List.take_zero]

end Batch
