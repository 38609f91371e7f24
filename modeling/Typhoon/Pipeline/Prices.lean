import Typhoon.Aggregator.Published
import Typhoon.Pipeline.Law

/-!
# The prices of the records

A record carries the price of a trade that each aggregator has received, as far as the two read inside
their vectors. `records_frozen` takes what `published_frozen` says of an aggregator to the records: once
an aggregator has accepted `size - 1` trades, these are all that the records can show of its feed.
-/

namespace Typhoon.Pipeline

open Aggregator Aligner

variable {Price : Type*}

/-- The price of a feed in the record of a label `T`, as far as an aggregator that has sent `sent` reads
inside its vector: that of one of the trades `held`. -/
def HeldPrice (held : List (ℤ × Price)) (sent : List (Sent Price)) (T : ℤ) (p : Price) : Prop :=
  (∃ elem ∈ held, p = elem.2) ∨ ∃ x ∈ sent, x.T = T ∧ x.closing = none

/-- The price in the message of a tick is held where all prices are that its aggregator has read. -/
theorem heldPrice_wire (feed : Feed) (garbage : ℤ → ℤ × Price) {held : List (ℤ × Price)}
    {sent : List (Sent Price)} (h : ∀ x ∈ sent, ∀ elem, x.closing = some elem → elem ∈ held)
    {msg : Message Price} (hmsg : msg ∈ sent.map (wire feed garbage)) :
    HeldPrice held sent msg.T msg.p := by
  obtain ⟨x, hx, rfl⟩ := List.mem_map.1 hmsg
  cases hc : x.closing with
  | none => exact .inr ⟨x, hx, rfl, hc⟩
  | some elem =>
    refine .inl ⟨elem, h x hx elem hc, ?_⟩
    simp [wire, tickMessage, hc]

variable [Zero Price] {DEBUG : Bool} {size n₁ n₂ i₁ i₂ : ℤ} {garbage₁ garbage₂ : ℤ → ℤ × Price}
  {s₀ s s' : State Price} {evs evs' : List (Step Price)}

/-- Once an aggregator has accepted `size - 1` trades, every record that is ever sent shows the price of
one of these for its feed, unless that tick was read past the end of the vector. -/
theorem records_frozen (hs : 2 ≤ size) (hi₁ : 0 < i₁) (hi₂ : 0 < i₂) (hn₁ : 0 ≤ n₁) (hn₂ : 0 ≤ n₂)
    (h0 : start size n₁ n₂ i₁ i₂ = some s₀)
    (hrun : (pipeline DEBUG i₁ i₂ garbage₁ garbage₂).machine.run s₀ evs = some s)
    (hrun' : (pipeline DEBUG i₁ i₂ garbage₁ garbage₂).machine.run s evs' = some s') :
    (size - 1 ≤ s.left.cque.queue.length → ∀ r ∈ sentRecords s',
      HeldPrice (s.left.cque.queue.take (capacity size)) s'.left.sent r.T r.binance) ∧
    (size - 1 ≤ s.right.cque.queue.length → ∀ r ∈ sentRecords s',
      HeldPrice (s.right.cque.queue.take (capacity size)) s'.right.sent r.T r.bitmex) := by
  obtain ⟨B, M, hlaw⟩ := pipeline_law hi₁ hi₂ hn₁ hn₂ h0
    (Guarded.run_append_eq_some.2 ⟨s, hrun, hrun'⟩)
  obtain ⟨b, m, hb, hm, rfl⟩ := start_eq_some h0
  obtain ⟨hleft, hright⟩ := Fanin.run_senders hrun
  obtain ⟨hleft', hright'⟩ := Fanin.run_senders hrun'
  constructor
  · intro hfull r hr
    obtain ⟨msg, hmsg, _, -, -, rfl⟩ := (hlaw.mem_records r).1 hr
    have hsent : msg ∈ s'.left.sent.map (wire .binance garbage₁) := by
      rw [hlaw.binance_sent]
      exact List.mem_append_left _ hmsg
    exact heldPrice_wire .binance garbage₁ (fun x hx elem helem =>
      (published_frozen hs hb hleft hfull hleft' x hx elem helem).1) hsent
  · intro hfull r hr
    obtain ⟨_, -, msg, hmsg, hT, rfl⟩ := (hlaw.mem_records r).1 hr
    have hsent : msg ∈ s'.right.sent.map (wire .bitmex garbage₂) := by
      rw [hlaw.bitmex_sent]
      exact List.mem_append_left _ hmsg
    show HeldPrice _ _ _ msg.p
    rw [show (joined DEBUG _ msg).T = msg.T from hT]
    exact heldPrice_wire .bitmex garbage₂ (fun x hx elem helem =>
      (published_frozen hs hm hright hfull hright' x hx elem helem).1) hsent

/-- Two aggregators with queues of size two that have received a trade each, and then tick. -/
theorem records_frozen_two :
    ∃ s₀ s s' : State ℤ, start 2 0 0 1000 1000 = some s₀ ∧
      (pipeline true 1000 1000 (fun T => (T, 7)) fun T => (T, 9)).machine.run s₀
        [.left (.trade (5, 70)), .right (.trade (6, 90))] = some s ∧
      (pipeline true 1000 1000 (fun T => (T, 7)) fun T => (T, 9)).machine.run s
        [.left .exec, .right .exec, .left .send, .right .send, .receiveLeft, .receiveRight] = some s' ∧
      ∀ r ∈ sentRecords s', HeldPrice (s.left.cque.queue.take (capacity 2)) s'.left.sent r.T
        r.binance := by
  obtain ⟨s₀, s, s', h0, hrun, hrun', hfull⟩ : ∃ s₀ s s' : State ℤ,
      start 2 0 0 1000 1000 = some s₀ ∧
      (pipeline true 1000 1000 (fun T => (T, 7)) fun T => (T, 9)).machine.run s₀
        [.left (.trade (5, 70)), .right (.trade (6, 90))] = some s ∧
      (pipeline true 1000 1000 (fun T => (T, 7)) fun T => (T, 9)).machine.run s
        [.left .exec, .right .exec, .left .send, .right .send, .receiveLeft, .receiveRight] =
          some s' ∧
      (2 : ℤ) - 1 ≤ s.left.cque.queue.length := ⟨_, _, _, rfl, rfl, rfl, by decide⟩
  exact ⟨s₀, s, s', h0, hrun, hrun', (records_frozen (by decide) (by decide) (by decide) (by decide)
    (by decide) h0 hrun hrun').1 hfull⟩

end Typhoon.Pipeline
