import Typhoon.Aggregator.Closing
import Typhoon.Aggregator.Schedule

/-!
# The aggregator as a process

`main` of `src/provider/aggregator.cpp` after its command line: it constructs the queue, calls
`get_closest_tp`, starts `send_every` in the consumer thread, and then pushes trades as they are
received. The two threads and the clock take their steps in any order. `exec` and `push` are one step
each, the clock never goes back, and `sleep_until` returns only when the clock has reached its
argument.

`start` is the state in which the consumer thread begins and `machine` its steps. The lemmas here say
what a run keeps: the clock is the first reading and what has elapsed since (`clock_eq`), the queue is
that of the calls made so far (`cque_eq`), and the labels sent are the schedule's (`labels_eq`).
-/

namespace Typhoon.Aggregator

variable {Price : Type*}

/-- Where the consumer thread stands in the loop of `send_every`. -/
inductive Consumer (Price : Type*)
  /-- About to call `exec`, for the tick labelled `nextStartTime`. -/
  | exec (nextStartTime : ℤ)
  /-- About to send the closing that `exec` returned. -/
  | send (nextStartTime : ℤ) (closing : Option (ℤ × Price))
  /-- In `sleep_until(nextStartTime)`. -/
  | sleep (nextStartTime : ℤ)

/-- The label that the consumer thread is at. -/
def Consumer.label : Consumer Price → ℤ
  | .exec T => T
  | .send T _ => T
  | .sleep T => T

/-- A tick sent: its label, and the closing that it carries, `none` when `exec` read past the end of
the vector. -/
structure Sent (Price : Type*) where
  T : ℤ
  closing : Option (ℤ × Price)

/-- The state of an aggregator: the millisecond clock, the queue, the consumer thread, and the ticks
sent so far. -/
structure Process (Price : Type*) where
  clock : ℤ
  cque : CircularQueue (ℤ × Price)
  consumer : Consumer Price
  sent : List (Sent Price)

/-- A step of an aggregator. -/
inductive Event (Price : Type*)
  /-- The clock advances. -/
  | advance (ms : ℕ)
  /-- A trade is received and pushed. -/
  | trade (elem : ℤ × Price)
  /-- The consumer calls `exec`. -/
  | exec
  /-- The consumer sends the tick and goes to sleep. -/
  | send
  /-- `sleep_until` returns. -/
  | wake

namespace Process

/-- The aggregator when the consumer thread begins, with a queue of `size` and a clock that
`get_closest_tp` read as `now`. -/
def start (size now interval : ℤ) : Option (Process Price) :=
  (getClosestTp now interval).map fun nextStartTime =>
    ⟨now, .construct size, .exec nextStartTime, []⟩

/-- The steps of an aggregator. -/
def machine (interval : ℤ) : Guarded (Process Price) (Event Price) where
  step s
    | .advance ms => some { s with clock := s.clock + ms }
    | .trade elem => some { s with cque := s.cque.push elem }
    | .exec =>
      match s.consumer with
      | .exec nextStartTime =>
        -- The first call comes at once, before any sleep.
        some { s with cque := s.cque.exec.2, consumer := .send nextStartTime s.cque.exec.1 }
      | _ => none
    | .send =>
      match s.consumer with
      | .send nextStartTime closing =>
        some { s with
          consumer := .sleep (nextStartTime + interval)
          sent := s.sent ++ [⟨nextStartTime, closing⟩] }
      | _ => none
    | .wake =>
      match s.consumer with
      | .sleep nextStartTime =>
        -- `sleep_until` may return late, and not early.
        if nextStartTime ≤ s.clock then some { s with consumer := .exec nextStartTime } else none
      | _ => none

end Process

/-- What an event adds to the clock. -/
def Event.ms : Event Price → ℤ
  | .advance ms => ms
  | _ => 0

/-- The call that an event makes on the queue. -/
def Event.call : Event Price → Option (Call (ℤ × Price))
  | .trade elem => some (.push elem)
  | .exec => some .exec
  | _ => none

/-- The time that passes in a run. -/
def elapsed (evs : List (Event Price)) : ℤ := (evs.map Event.ms).sum

/-- The calls that a run makes on the queue. -/
def calls (evs : List (Event Price)) : List (Call (ℤ × Price)) := evs.filterMap Event.call

/-- The time of a run in two parts is the sum of theirs. -/
theorem elapsed_append (evs evs' : List (Event Price)) :
    elapsed (evs ++ evs') = elapsed evs + elapsed evs' := by
  simp [elapsed]

/-- Time does not run backwards. -/
theorem elapsed_nonneg (evs : List (Event Price)) : 0 ≤ elapsed evs := by
  induction evs with
  | nil => exact le_refl _
  | cons e evs ih =>
    have he : 0 ≤ e.ms := by cases e <;> simp [Event.ms]
    have hsum : elapsed (e :: evs) = e.ms + elapsed evs := by simp [elapsed]
    omega

/-- The calls of a run in two parts are those of the first and then those of the second. -/
theorem calls_append (evs evs' : List (Event Price)) :
    calls (evs ++ evs') = calls evs ++ calls evs' :=
  List.filterMap_append

/-- Time that passes calls nothing. -/
@[simp] theorem calls_advance (ms : ℕ) : calls [(.advance ms : Event Price)] = [] := rfl

/-- A trade is a push. -/
@[simp] theorem calls_trade (elem : ℤ × Price) : calls [.trade elem] = [.push elem] := rfl

/-- The reading of a closing is an `exec`. -/
@[simp] theorem calls_exec : calls [(.exec : Event Price)] = [.exec] := rfl

/-- A tick that is sent calls nothing. -/
@[simp] theorem calls_send : calls [(.send : Event Price)] = [] := rfl

/-- Waking up calls nothing. -/
@[simp] theorem calls_wake : calls [(.wake : Event Price)] = [] := rfl

/-- The pushes of a run are its trades. -/
theorem push_mem_calls {evs : List (Event Price)} {elem : ℤ × Price} :
    .push elem ∈ calls evs ↔ .trade elem ∈ evs := by
  unfold calls
  rw [List.mem_filterMap]
  constructor
  · rintro ⟨e, he, hcall⟩
    cases e <;> simp only [Event.call, Option.some.injEq, Call.push.injEq, reduceCtorEq] at hcall
    rwa [← hcall]
  · intro h
    exact ⟨.trade elem, h, rfl⟩

namespace Process

variable {size now interval : ℤ} {s₀ s s' : Process Price} {e : Event Price}
  {evs : List (Event Price)}

/-- A step is one of the five events, each under its guard. -/
theorem step_cases (h : (machine interval).step s e = some s') :
    (∃ ms, e = .advance ms ∧ s' = { s with clock := s.clock + ms }) ∨
    (∃ elem, e = .trade elem ∧ s' = { s with cque := s.cque.push elem }) ∨
    (∃ T, e = .exec ∧ s.consumer = .exec T ∧
      s' = { s with cque := s.cque.exec.2, consumer := .send T s.cque.exec.1 }) ∨
    (∃ T closing, e = .send ∧ s.consumer = .send T closing ∧
      s' = { s with consumer := .sleep (T + interval), sent := s.sent ++ [⟨T, closing⟩] }) ∨
    (∃ T, e = .wake ∧ s.consumer = .sleep T ∧ T ≤ s.clock ∧
      s' = { s with consumer := .exec T }) := by
  cases e with
  | advance ms => exact .inl ⟨ms, rfl, by simpa [machine] using h.symm⟩
  | trade elem => exact .inr (.inl ⟨elem, rfl, by simpa [machine] using h.symm⟩)
  | exec =>
    cases hc : s.consumer with
    | exec T => exact .inr (.inr (.inl ⟨T, rfl, rfl, by simpa [machine, hc] using h.symm⟩))
    | send T closing => simp [machine, hc] at h
    | sleep T => simp [machine, hc] at h
  | send =>
    cases hc : s.consumer with
    | exec T => simp [machine, hc] at h
    | send T closing =>
      exact .inr (.inr (.inr (.inl ⟨T, closing, rfl, rfl, by simpa [machine, hc] using h.symm⟩)))
    | sleep T => simp [machine, hc] at h
  | wake =>
    cases hc : s.consumer with
    | exec T => simp [machine, hc] at h
    | send T closing => simp [machine, hc] at h
    | sleep T =>
      by_cases hclock : T ≤ s.clock
      · exact .inr (.inr (.inr (.inr ⟨T, rfl, rfl, hclock,
          by simpa [machine, hc, hclock] using h.symm⟩)))
      · simp [machine, hc, hclock] at h

/-- The consumer thread begins with an empty queue, at the first label. -/
theorem start_eq_some (h : start size now interval = some s₀) :
    ∃ F, getClosestTp now interval = some F ∧ s₀ = ⟨now, .construct size, .exec F, []⟩ := by
  obtain ⟨F, hF, hs⟩ := Option.map_eq_some_iff.1 h
  exact ⟨F, hF, hs.symm⟩

/-- What the consumer thread begins with, for the label that `get_closest_tp` returned. -/
theorem start_eq {F : ℤ} (hF : getClosestTp now interval = some F)
    (h0 : start size now interval = some s₀) : s₀ = ⟨now, .construct size, .exec F, []⟩ := by
  obtain ⟨F', hF', rfl⟩ := start_eq_some h0
  rw [Option.some.inj (hF.symm.trans hF')]

/-- The clock that the consumer thread begins at. -/
theorem clock_of_start (h : start size now interval = some s₀) : s₀.clock = now := by
  obtain ⟨F, -, rfl⟩ := start_eq_some h
  rfl

/-- The clock of a run is the reading it began with and the time passed since. -/
theorem clock_eq (hrun : (machine interval).run s₀ evs = some s) :
    s.clock = s₀.clock + elapsed evs := by
  refine Guarded.run_induction (P := fun evs s => s.clock = s₀.clock + elapsed evs) ?_ ?_ hrun
  · simp [elapsed]
  · intro evs s e s' _ ih hstep
    have hsum : elapsed (evs ++ [e]) = elapsed evs + e.ms := by simp [elapsed]
    rw [hsum]
    rcases step_cases hstep with ⟨ms, rfl, rfl⟩ | ⟨elem, rfl, rfl⟩ | ⟨T, rfl, -, rfl⟩ |
      ⟨T, closing, rfl, -, rfl⟩ | ⟨T, rfl, -, -, rfl⟩ <;> simp only [Event.ms, ih] <;> omega

/-- The queue of a run is that of the calls that the run has made. -/
theorem cque_eq (h0 : start size now interval = some s₀)
    (hrun : (machine interval).run s₀ evs = some s) :
    s.cque = (history size (calls evs)).cque := by
  obtain ⟨F, -, rfl⟩ := start_eq_some h0
  refine Guarded.run_induction (P := fun evs s => s.cque = (history size (calls evs)).cque) rfl ?_
    hrun
  intro evs s e s' _ ih hstep
  rw [calls_append]
  -- A trade and an `exec` are the calls on the queue; the other steps leave it.
  rcases step_cases hstep with ⟨ms, rfl, rfl⟩ | ⟨elem, rfl, rfl⟩ | ⟨T, rfl, -, rfl⟩ |
    ⟨T, closing, rfl, -, rfl⟩ | ⟨T, rfl, -, -, rfl⟩
  · rw [calls_advance, List.append_nil]; exact ih
  · rw [calls_trade, history_concat, ih]; rfl
  · rw [calls_exec, history_concat, ih]; rfl
  · rw [calls_send, List.append_nil]; exact ih
  · rw [calls_wake, List.append_nil]; exact ih

/-- The schedule of a run: the consumer is at the label that comes after those sent, and the labels
sent are a progression from the first one. -/
theorem labels_eq {F : ℤ} (hF : getClosestTp now interval = some F)
    (h0 : start size now interval = some s₀) (hrun : (machine interval).run s₀ evs = some s) :
    s.consumer.label = F + s.sent.length * interval ∧
      s.sent.map Sent.T = Grid.progression interval F s.sent.length := by
  obtain rfl := start_eq hF h0
  refine Guarded.run_induction (P := fun _ s => s.consumer.label = F + s.sent.length * interval ∧
    s.sent.map Sent.T = Grid.progression interval F s.sent.length) ?_ ?_ hrun
  · simp [Consumer.label, Grid.progression]
  · intro evs s e s' _ ih hstep
    rcases step_cases hstep with ⟨ms, rfl, rfl⟩ | ⟨elem, rfl, rfl⟩ | ⟨T, rfl, hc, rfl⟩ |
      ⟨T, closing, rfl, hc, rfl⟩ | ⟨T, rfl, hc, -, rfl⟩
    · exact ih
    · exact ih
    · rw [hc] at ih; exact ih
    -- Only `send` moves on to the next label, and it records the one it leaves.
    · rw [hc] at ih
      obtain ⟨hlabel, hsent⟩ := ih
      simp only [Consumer.label, List.length_append, List.length_singleton, List.map_append,
        List.map_cons, List.map_nil] at hlabel hsent ⊢
      refine ⟨?_, ?_⟩
      · rw [hlabel]
        push_cast
        ring
      · rw [hsent, hlabel, Grid.progression_succ]
    · rw [hc] at ih; exact ih

/-- A consumer that is about to send sends its tick. -/
theorem next_tick_of_send (interval : ℤ) (s : Process Price) {T : ℤ}
    {closing : Option (ℤ × Price)} (hc : s.consumer = .send T closing) :
    ∃ evs s', (machine interval).run s evs = some s' ∧ s'.sent.length = s.sent.length + 1 := by
  have hstep : (machine interval).step s .send = some { s with
      consumer := .sleep (T + interval), sent := s.sent ++ [⟨T, closing⟩] } := by
    simp only [machine, hc]
  refine ⟨[.send], _, Guarded.run_cons_of_step hstep [], ?_⟩
  rw [List.length_append, List.length_singleton]

/-- A consumer that is about to call `exec` calls it and sends its tick. -/
theorem next_tick_of_exec (interval : ℤ) (s : Process Price) {T : ℤ}
    (hc : s.consumer = .exec T) :
    ∃ evs s', (machine interval).run s evs = some s' ∧ s'.sent.length = s.sent.length + 1 := by
  let m : Process Price := { s with cque := s.cque.exec.2, consumer := .send T s.cque.exec.1 }
  have hstep : (machine interval).step s .exec = some m := by simp only [machine, hc, m]
  obtain ⟨evs, s', hrun, hsent⟩ := next_tick_of_send interval m rfl
  exact ⟨.exec :: evs, s', (Guarded.run_cons_of_step hstep evs).trans hrun, hsent⟩

/-- Whatever the consumer thread is at, it can go on to its next tick. -/
theorem next_tick (interval : ℤ) (s : Process Price) :
    ∃ evs s', (machine interval).run s evs = some s' ∧ s'.sent.length = s.sent.length + 1 := by
  cases hc : s.consumer with
  | exec T => exact next_tick_of_exec interval s hc
  | send T closing => exact next_tick_of_send interval s hc
  | sleep T =>
    -- The clock advances to the label, and `sleep_until` returns.
    let m : Process Price := { s with clock := s.clock + (T - s.clock).toNat }
    have hadvance : (machine interval).step s (.advance (T - s.clock).toNat) = some m := rfl
    have hclock : T ≤ m.clock := by
      show T ≤ s.clock + (T - s.clock).toNat
      omega
    have hm : m.consumer = .sleep T := hc
    have hwake : (machine interval).step m .wake = some { m with consumer := .exec T } := by
      simp only [machine, hm, if_pos hclock]
    obtain ⟨evs, s', hrun, hsent⟩ := next_tick_of_exec interval { m with consumer := .exec T } rfl
    refine ⟨.advance (T - s.clock).toNat :: .wake :: evs, s', ?_, hsent⟩
    rw [Guarded.run_cons_of_step hadvance, Guarded.run_cons_of_step hwake, hrun]

end Process

end Typhoon.Aggregator
