import Mathlib.Data.List.ReduceOption
import Typhoon.Aggregator.Reads

/-!
# What an aggregator publishes

An aggregator is there to sample: each tick is to carry the last trade received by then. `sampler` is
this purpose, and `published_samples` says how far it is met. While fewer than `size` trades have been
received, the ticks of every run are those of the sampler.

What comes after is told by `published_frozen`. The slot that `exec` reads stays below `size - 1`, and
the vector is only appended to, so once `size - 1` trades have been accepted no tick carries any other.
-/

namespace Typhoon.Aggregator

open Process (machine start)

variable {Price : Type*}

/-! ## Sampling -/

/-- The trades received in a run. -/
def trades (evs : List (Event Price)) : List (ℤ × Price) :=
  evs.filterMap fun
    | .trade elem => some elem
    | _ => none

/-- A sampler holds the last trade and gives it at each `exec`. -/
def sampler : Machine (Option (ℤ × Price)) (Event Price) (Option (Option (ℤ × Price))) where
  step last
    | .trade elem => (some elem, none)
    | .exec => (last, some last)
    | _ => (last, none)

/-- What a sampler gives in a run. -/
def samples (evs : List (Event Price)) : List (Option (ℤ × Price)) :=
  (sampler.outputs none evs).reduceOption

/-- The closing that is read and not sent yet. -/
def Consumer.inFlight : Consumer Price → List (Option (ℤ × Price))
  | .send _ closing => [closing]
  | _ => []

/-- The trades of a run in two parts are those of the first and then those of the second. -/
theorem trades_append (evs evs' : List (Event Price)) :
    trades (evs ++ evs') = trades evs ++ trades evs' :=
  List.filterMap_append

/-- One more event adds the sample that it takes, if it takes one. -/
theorem samples_concat (evs : List (Event Price)) (e : Event Price) :
    samples (evs ++ [e]) =
      samples evs ++ [(sampler.step (sampler.state none evs) e).2].reduceOption := by
  rw [samples, Machine.outputs_concat, List.reduceOption_append, samples]

/-- A sampler holds the last trade. -/
theorem sampler_state (evs : List (Event Price)) :
    sampler.state none evs = (trades evs).getLast? := by
  induction evs using List.reverseRecOn with
  | nil => rfl
  | append_singleton evs e ih =>
    rw [Machine.state_concat, trades_append, ih]
    cases e with
    | trade elem => simp [sampler, trades]
    | _ => simp [sampler, trades]

/-- Trades that are fewer than `size` are all accepted. -/
theorem accepted_eq_trades {size : ℤ} (hs : 1 ≤ size) {evs : List (Event Price)}
    (hfew : ((trades evs).length : ℤ) < size) :
    (history size (calls evs)).accepted = trades evs := by
  induction evs using List.reverseRecOn with
  | nil => rfl
  | append_singleton evs e ih =>
    rw [trades_append, List.length_append] at hfew
    have ih' := ih (by omega)
    rw [trades_append, calls_append, ← ih']
    cases e with
    | trade elem =>
      have hr := history_represents hs (calls evs)
      -- What is pending has been accepted, so it leaves room for one more.
      have hroom : (batch size (calls evs)).pending.length < capacity size := by
        have hlen := (batch size (calls evs)).length_contents
        have hone : (trades [(.trade elem : Event Price)]).length = 1 := rfl
        rw [← hr.accepted_eq, ih'] at hlen
        unfold capacity
        omega
      have haccepts := (accepts_iff hs hr).2 hroom
      rw [calls_trade, history_concat]
      simp [History.machine, haccepts, trades]
    | exec => rw [calls_exec, history_concat]; simp [History.machine, trades]
    | advance ms => simp [trades]
    | send => simp [trades]
    | wake => simp [trades]

namespace Process

variable {size now interval : ℤ} {s₀ s s' : Process Price} {evs evs' : List (Event Price)}

/-- While fewer than `size` trades have been received, `exec` reads the last one. -/
theorem exec_eq_getLast? (hs : 1 ≤ size) (h0 : start size now interval = some s₀)
    (hrun : (machine interval).run s₀ evs = some s) (hfew : ((trades evs).length : ℤ) < size) :
    s.cque.exec.1 = (trades evs).getLast? := by
  rw [cque_eq h0 hrun, exec_eq hs (calls evs), accepted_eq_trades hs hfew, closeSlot_of_lt hfew,
    List.getLast?_eq_getElem?]

end Process

/-- While fewer than `size` trades have been received, the closings that an aggregator has sent, and the
one that it is about to send, are those of the sampler. -/
theorem published_samples {size now interval : ℤ} (hs : 1 ≤ size) {s₀ s : Process Price}
    (h0 : start size now interval = some s₀) {evs : List (Event Price)}
    (hrun : (machine interval).run s₀ evs = some s) (hfew : ((trades evs).length : ℤ) < size) :
    s.sent.map Sent.closing ++ s.consumer.inFlight = samples evs := by
  refine Guarded.run_induction (P := fun evs s => ((trades evs).length : ℤ) < size →
    s.sent.map Sent.closing ++ s.consumer.inFlight = samples evs) ?_ ?_ hrun hfew
  · intro _
    obtain ⟨F, -, rfl⟩ := Process.start_eq_some h0
    rfl
  · intro evs s e s' hm ih hstep hfew
    rw [trades_append, List.length_append] at hfew
    have hbefore : ((trades evs).length : ℤ) < size := by omega
    have ih' := ih hbefore
    rw [samples_concat, ← ih', List.append_assoc]
    rcases Process.step_cases hstep with ⟨ms, rfl, rfl⟩ | ⟨elem, rfl, rfl⟩ | ⟨T, rfl, hc, rfl⟩ |
      ⟨T, closing, rfl, hc, rfl⟩ | ⟨T, rfl, hc, -, rfl⟩
    · simp [sampler]
    · simp [sampler]
    -- The closing that is read now is in flight, and the sampler gives it.
    · have hread : (sampler.step (sampler.state none evs) .exec).2 = some s.cque.exec.1 := by
        rw [Process.exec_eq_getLast? hs h0 hm hbefore, ← sampler_state]
        rfl
      rw [hread, hc]
      simp [Consumer.inFlight]
    · simp [sampler, hc, Consumer.inFlight]
    · simp [sampler, hc, Consumer.inFlight]

/-- Two trades and two ticks. -/
theorem published_samples_two :
    ∃ s₀ s : Process ℤ, start 1000 0 1000 = some s₀ ∧
      (machine 1000).run s₀ [.trade (5, 7), .exec, .send, .trade (6, 8), .advance 2000, .wake,
        .exec] = some s ∧
      s.sent.map Sent.closing ++ s.consumer.inFlight = samples [.trade (5, 7), .exec, .send,
        .trade (6, 8), .advance 2000, .wake, .exec] := by
  refine ⟨_, _, rfl, rfl, ?_⟩
  exact published_samples (show (1 : ℤ) ≤ 1000 by decide) (show start 1000 0 1000 = some _ from rfl)
    rfl (by decide)

/-! ## The frozen prices -/

/-- The slot that `exec` reads is below `size - 1`. -/
theorem closeSlot_lt_capacity {size : ℤ} (hs : 2 ≤ size) (n : ℕ) :
    closeSlot size n < capacity size := by
  have := Int.emod_lt_of_pos (n : ℤ) (show 0 < size by omega)
  unfold closeSlot capacity
  omega

/-- A push only appends. -/
theorem CircularQueue.queue_isPrefix_push {α : Type*} (q : CircularQueue α) (elem : α) :
    q.queue <+: (q.push elem).queue := by
  unfold CircularQueue.push
  split
  · exact List.prefix_append _ _
  · exact List.prefix_refl _

/-- A step only appends to the vector. -/
theorem Process.queue_isPrefix_step {interval : ℤ} {s s' : Process Price} {e : Event Price}
    (hstep : (machine interval).step s e = some s') : s.cque.queue <+: s'.cque.queue := by
  rcases Process.step_cases hstep with ⟨ms, -, rfl⟩ | ⟨elem, -, rfl⟩ | ⟨T, -, -, rfl⟩ |
    ⟨T, closing, -, -, rfl⟩ | ⟨T, -, -, -, rfl⟩
  · exact List.prefix_refl _
  · exact s.cque.queue_isPrefix_push elem
  · exact List.prefix_refl _
  · exact List.prefix_refl _
  · exact List.prefix_refl _

/-- A run only appends to the vector. -/
theorem Process.queue_isPrefix {interval : ℤ} {s s' : Process Price} {evs : List (Event Price)}
    (hrun : (machine interval).run s evs = some s') : s.cque.queue <+: s'.cque.queue := by
  refine Guarded.run_induction (P := fun _ s' => s.cque.queue <+: s'.cque.queue)
    (List.prefix_refl _) ?_ hrun
  intro _ _ _ _ _ ih hstep
  exact ih.trans (Process.queue_isPrefix_step hstep)

/-- The closings that an aggregator has sent, and the one that it is about to send, are among the first
`size - 1` elements of the vector. -/
structure Early (size : ℤ) (s : Process Price) : Prop where
  sent : ∀ x ∈ s.sent, ∀ elem, x.closing = some elem → elem ∈ s.cque.queue.take (capacity size)
  inFlight : ∀ elem, some elem ∈ s.consumer.inFlight → elem ∈ s.cque.queue.take (capacity size)

/-- Every run publishes only the first `size - 1` elements of the vector. -/
theorem early_of_run {size now interval : ℤ} (hs : 2 ≤ size) {s₀ s : Process Price}
    (h0 : start size now interval = some s₀) {evs : List (Event Price)}
    (hrun : (machine interval).run s₀ evs = some s) : Early size s := by
  refine Guarded.run_induction (P := fun _ s => Early size s) ?_ ?_ hrun
  · obtain ⟨F, -, rfl⟩ := Process.start_eq_some h0
    exact ⟨fun x hx => absurd hx List.not_mem_nil, fun elem h => absurd h List.not_mem_nil⟩
  · intro evs s e s' hm ih hstep
    have hkeep := (Process.queue_isPrefix_step hstep).take (capacity size)
    rcases Process.step_cases hstep with ⟨ms, -, rfl⟩ | ⟨elem, -, rfl⟩ | ⟨T, -, hc, rfl⟩ |
      ⟨T, closing, -, hc, rfl⟩ | ⟨T, -, hc, -, rfl⟩
    · exact ⟨ih.sent, ih.inFlight⟩
    · exact ⟨fun x hx y hy => hkeep.subset (ih.sent x hx y hy),
        fun y hy => hkeep.subset (ih.inFlight y hy)⟩
    -- The element read lies at a slot below `size - 1`.
    · refine ⟨ih.sent, fun elem h => ?_⟩
      have hread : s.cque.queue[s.cque.closeIndex]? = some elem :=
        (List.mem_singleton.1 h).symm
      have hidx : s.cque.closeIndex < capacity size := by
        rw [Process.cque_eq h0 hm, closeIndex_eq (by omega)]
        exact closeSlot_lt_capacity hs _
      rw [← List.getElem?_take_of_lt hidx] at hread
      exact List.mem_of_getElem? hread
    · refine ⟨fun x hx elem helem => ?_, fun elem h => absurd h List.not_mem_nil⟩
      rcases List.mem_append.1 hx with hx | hx
      · exact ih.sent x hx elem helem
      · rw [List.mem_singleton.1 hx] at helem
        exact ih.inFlight elem (by rw [hc, ← helem]; exact List.mem_singleton_self _)
    · exact ⟨ih.sent, fun elem h => absurd h List.not_mem_nil⟩

/-- Once an aggregator has accepted `size - 1` trades, every tick that it ever sends carries one of
these: no trade received later is published. -/
theorem published_frozen {size now interval : ℤ} (hs : 2 ≤ size) {s₀ s s' : Process Price}
    (h0 : start size now interval = some s₀) {evs evs' : List (Event Price)}
    (hrun : (machine interval).run s₀ evs = some s) (hfull : size - 1 ≤ s.cque.queue.length)
    (hrun' : (machine interval).run s evs' = some s') :
    ∀ x ∈ s'.sent, ∀ elem, x.closing = some elem →
      elem ∈ s.cque.queue.take (capacity size) ∧ .trade elem ∈ evs := by
  intro x hx elem helem
  have hearly := early_of_run hs h0 (Guarded.run_append_eq_some.2 ⟨s, hrun, hrun'⟩)
  have hmem := hearly.sent x hx elem helem
  -- The vector has been appended to since, past its first `size - 1` elements.
  obtain ⟨more, hmore⟩ := Process.queue_isPrefix hrun'
  have hcap : capacity size ≤ s.cque.queue.length := by
    unfold capacity
    omega
  rw [← hmore, List.take_append_of_le_length hcap] at hmem
  exact ⟨hmem, Process.trade_mem_of_mem_queue hs h0 hrun (List.mem_of_mem_take hmem)⟩

/-- A queue of size two is full with its first trade, and the second one is never published. -/
theorem published_frozen_two :
    ∃ s₀ s s' : Process ℤ, start 2 0 1000 = some s₀ ∧
      (machine 1000).run s₀ [.trade (5, 7), .exec, .send] = some s ∧
      (machine 1000).run s [.trade (6, 8), .advance 2000, .wake, .exec, .send] = some s' ∧
      ∀ x ∈ s'.sent, ∀ elem, x.closing = some elem → elem ∈ s.cque.queue.take (capacity 2) ∧
        .trade elem ∈ ([.trade (5, 7), .exec, .send] : List (Event ℤ)) := by
  refine ⟨_, _, _, rfl, rfl, rfl, ?_⟩
  exact published_frozen (by decide) (show start 2 0 1000 = some _ from rfl) rfl (by decide)
    (show (machine 1000).run _ [.trade (6, 8), .advance 2000, .wake, .exec, .send] = some _ from rfl)

end Typhoon.Aggregator
