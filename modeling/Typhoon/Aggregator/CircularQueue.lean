import Typhoon.Library.Machine

/-!
# The circular queue of the aggregator

`CircularQueue` of `src/provider/aggregator.cpp`, with its two operations. `push` runs in the thread
that receives trades and `exec` in the timer's thread; each is one atomic step here. The class has a
mutex `m`, which neither operation locks, so it is not part of the model.

The C++ `int` fields are integers, and `%` is the truncated remainder `Int.tmod`. Reading
`queue[i]` past the end of the vector is undefined behaviour in C++. `exec` returns `none` there and
goes on, so that a statement about a run says something about such runs too.

`History` runs the queue with two records that the code does not keep: every element that `push`
accepted, and those accepted since the last `exec`. The statements about the queue compare the code's
fields with these.
-/

namespace Typhoon.Aggregator

/-- The fields of `CircularQueue<T>`. `reserved` is the capacity that the constructor's
`queue.reserve(size)` sets aside for the vector. -/
structure CircularQueue (α : Type*) where
  size : ℤ
  start : ℤ
  end_ : ℤ
  reserved : ℤ
  queue : List α
  deriving DecidableEq

namespace CircularQueue

variable {α : Type*}

/-- The constructor: an empty vector with room for `size` elements. -/
def construct (size : ℤ) : CircularQueue α := ⟨size, 0, 0, size, []⟩

/-- The guard of `push`: the slot after `end` is not `start`. -/
def accepts (q : CircularQueue α) : Bool := (q.end_ + 1).tmod q.size != q.start

/-- `push`: append the element to the vector and advance `end` modulo `size`, unless the ring is
full. -/
def push (q : CircularQueue α) (elem : α) : CircularQueue α :=
  -- The vector is appended to: only `end` wraps.
  if q.accepts then
    { q with queue := q.queue ++ [elem], end_ := (q.end_ + 1).tmod q.size }
  else q

/-- The index that `exec` reads, `std::max(end-1, 0)`. -/
def closeIndex (q : CircularQueue α) : ℕ := (max (q.end_ - 1) 0).toNat

/-- `exec`: read the closing price, then move `start` to `end`. The read is `none` where the index is
past the end of the vector. -/
def exec (q : CircularQueue α) : Option α × CircularQueue α :=
  (q.queue[q.closeIndex]?, { q with start := q.end_ })

end CircularQueue

/-- A call of one of the two operations. -/
inductive Call (α : Type*)
  | push (elem : α)
  | exec
  deriving DecidableEq

/-- The queue with the records of what `push` accepted. -/
structure History (α : Type*) where
  cque : CircularQueue α
  /-- Everything accepted, oldest first. -/
  accepted : List α
  /-- What was accepted since the last `exec`, oldest first. -/
  since : List α

namespace History

variable {α : Type*}

/-- A freshly constructed queue. -/
def construct (size : ℤ) : History α := ⟨.construct size, [], []⟩

/-- The queue under its two operations. A `push` is recorded where the queue accepts it, and the
output of an `exec` is what it read. -/
def machine : Machine (History α) (Call α) (Option α) where
  step h
    | .push elem =>
      let kept := if h.cque.accepts then [elem] else []
      (⟨h.cque.push elem, h.accepted ++ kept, h.since ++ kept⟩, none)
    | .exec => (⟨h.cque.exec.2, h.accepted, []⟩, h.cque.exec.1)

end History

/-- The queue and its records after a list of calls on a freshly constructed queue. -/
def history {α : Type*} (size : ℤ) (calls : List (Call α)) : History α :=
  History.machine.state (.construct size) calls

/-- The history of one more call is a step of the machine. -/
theorem history_concat {α : Type*} (size : ℤ) (calls : List (Call α)) (call : Call α) :
    history size (calls ++ [call]) = (History.machine.step (history size calls) call).1 :=
  Machine.state_concat _ _ _ _

/-- What was accepted stays accepted: the record of a run extends that of its prefixes. -/
theorem accepted_isPrefix {α : Type*} (size : ℤ) (pre post : List (Call α)) :
    (history size pre).accepted <+: (history size (pre ++ post)).accepted := by
  induction post using List.reverseRecOn with
  | nil => rw [List.append_nil]
  | append_singleton post call ih =>
    rw [← List.append_assoc, history_concat]
    refine ih.trans ?_
    -- A call adds to the record at its end, or not at all.
    cases call with
    | push elem => exact List.prefix_append _ _
    | exec => exact List.prefix_refl _

end Typhoon.Aggregator
