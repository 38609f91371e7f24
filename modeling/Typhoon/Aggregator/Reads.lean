import Typhoon.Aggregator.Process

/-!
# What the ticks of an aggregator carry

The consumer thread calls `exec` as soon as it begins, whether or not a trade has been received.
`reads_in_bounds_iff` says what follows: `exec` stays inside the vector, and every tick carries an
element that was pushed, exactly in the runs that receive a trade before their first `exec`.
`ticks_eq_sendEvery` shows that the ticks of these runs are those of the loop in `Schedule.lean`.
-/

namespace Typhoon.Aggregator

open Process (machine start)

variable {Price : Type*}

/-- Every `exec` of a run reads inside the vector, and every tick sent carries an element that a push
stored there. -/
structure ReadsInBounds (interval : ℤ) (s₀ : Process Price) (evs : List (Event Price)) : Prop where
  /-- The index of each `exec` is below the length of the vector. -/
  exec_lt : ∀ pre post s, evs = pre ++ .exec :: post → (machine interval).run s₀ pre = some s →
    s.cque.closeIndex < s.cque.queue.length
  /-- Each tick carries the element of a trade that the vector holds. -/
  sent_stored : ∀ s, (machine interval).run s₀ evs = some s → ∀ x ∈ s.sent,
    ∃ elem, x.closing = some elem ∧ elem ∈ s.cque.queue ∧ .trade elem ∈ evs

/-- What is accepted was pushed. -/
theorem push_mem_of_mem_accepted {α : Type*} {size : ℤ} {calls : List (Call α)} {elem : α}
    (h : elem ∈ (history size calls).accepted) : .push elem ∈ calls := by
  induction calls using List.reverseRecOn with
  | nil => exact absurd h List.not_mem_nil
  | append_singleton calls call ih =>
    rw [history_concat] at h
    cases call with
    | push elem' =>
      rcases List.mem_append.1 h with h | h
      · exact List.mem_append_left _ (ih h)
      · refine List.mem_append_right _ (List.mem_singleton.2 ?_)
        split at h
        · rw [List.mem_singleton.1 h]
        · exact absurd h List.not_mem_nil
    | exec => exact List.mem_append_left _ (ih h)

/-- The first push is accepted, so a run that pushes has an accepted element. -/
theorem accepted_ne_nil_iff {α : Type*} {size : ℤ} (hs : 2 ≤ size) (calls : List (Call α)) :
    (history size calls).accepted ≠ [] ↔ ∃ elem, .push elem ∈ calls := by
  constructor
  · intro h
    obtain ⟨elem, helem⟩ := List.exists_mem_of_ne_nil _ h
    exact ⟨elem, push_mem_of_mem_accepted helem⟩
  · rintro ⟨elem, helem⟩
    -- Before the first push nothing is pending, and the queue has room.
    obtain ⟨pre, post, rfl⟩ := List.append_of_mem helem
    intro hnil
    have hr := history_represents (show 1 ≤ size by omega) pre
    have hpre : (history size pre).accepted = [] := by
      have := accepted_isPrefix size pre (.push elem :: post)
      rw [hnil] at this
      exact List.prefix_nil.1 this
    have hroom : (batch size pre).pending.length < capacity size := by
      have hlen := (batch size pre).length_contents
      rw [← hr.accepted_eq, hpre, List.length_nil] at hlen
      unfold capacity
      omega
    have hpush := (accepts_iff (by omega) hr).2 hroom
    have hacc : (history size (pre ++ [.push elem])).accepted = [elem] := by
      rw [history_concat]
      simp [History.machine, hpush, hpre]
    have := accepted_isPrefix size (pre ++ [.push elem]) post
    rw [List.append_assoc, List.singleton_append, hnil, hacc] at this
    exact absurd (List.prefix_nil.1 this) (List.cons_ne_nil _ _)

namespace Process

variable {size now interval : ℤ} {s₀ s : Process Price} {evs : List (Event Price)}

/-- The vector of a run is the record of what its calls had accepted. -/
theorem queue_eq (hs : 2 ≤ size) (h0 : start size now interval = some s₀)
    (hrun : (machine interval).run s₀ evs = some s) :
    s.cque.queue = (history size (calls evs)).accepted := by
  rw [cque_eq h0 hrun, queue_eq_accepted (by omega)]

/-- `exec` reads inside the vector exactly when a trade has been received. -/
theorem closeIndex_lt_iff (hs : 2 ≤ size) (h0 : start size now interval = some s₀)
    (hrun : (machine interval).run s₀ evs = some s) :
    s.cque.closeIndex < s.cque.queue.length ↔ ∃ elem, .trade elem ∈ evs := by
  have hidx := closeIndex_eq (show 1 ≤ size by omega) (calls evs)
  rw [← cque_eq h0 hrun] at hidx
  rw [queue_eq hs h0 hrun, hidx, closeSlot_lt_iff hs, List.length_pos_iff,
    accepted_ne_nil_iff hs]
  simp only [push_mem_calls]

/-- What the vector holds was received. -/
theorem trade_mem_of_mem_queue (hs : 2 ≤ size) (h0 : start size now interval = some s₀)
    (hrun : (machine interval).run s₀ evs = some s) {elem : ℤ × Price}
    (h : elem ∈ s.cque.queue) : .trade elem ∈ evs := by
  rw [queue_eq hs h0 hrun] at h
  exact push_mem_calls.1 (push_mem_of_mem_accepted h)

end Process

/-- A closing that is on its way, or was sent, holds an element of the vector. -/
def Stored (s : Process Price) (closing : Option (ℤ × Price)) : Prop :=
  ∃ elem, closing = some elem ∧ elem ∈ s.cque.queue

/-- A push keeps what the vector stores. -/
theorem CircularQueue.mem_queue_push {α : Type*} {q : CircularQueue α} {x : α} (elem : α)
    (h : x ∈ q.queue) : x ∈ (q.push elem).queue := by
  unfold CircularQueue.push
  split
  · exact List.mem_append_left _ h
  · exact h

/-- The invariant of the reads: every closing sent, and the one on its way, is stored. -/
structure Closings (s : Process Price) : Prop where
  sent : ∀ x ∈ s.sent, Stored s x.closing
  inFlight : ∀ T closing, s.consumer = .send T closing → Stored s closing

/-- A step keeps the invariant of the reads, if its `exec` reads inside the vector. -/
theorem step_closings {interval : ℤ} {s s' : Process Price} {e : Event Price}
    (hstep : (machine interval).step s e = some s') (h : Closings s)
    (hexec : e = .exec → s.cque.closeIndex < s.cque.queue.length) : Closings s' := by
  rcases Process.step_cases hstep with ⟨ms, rfl, rfl⟩ | ⟨elem, rfl, rfl⟩ | ⟨T, rfl, hc, rfl⟩ |
    ⟨T, closing, rfl, hc, rfl⟩ | ⟨T, rfl, hc, -, rfl⟩
  · exact ⟨h.sent, h.inFlight⟩
  -- A push adds to the vector and takes nothing from it.
  · have hkeep : ∀ closing, Stored s closing →
        Stored { s with cque := s.cque.push elem } closing := by
      rintro _ ⟨x, rfl, hx⟩
      exact ⟨x, rfl, CircularQueue.mem_queue_push elem hx⟩
    exact ⟨fun x hx => hkeep _ (h.sent x hx), fun T c hc => hkeep _ (h.inFlight T c hc)⟩
  -- The closing read is the element of the vector at the index of `exec`.
  · have hlt := hexec rfl
    have hread : s.cque.exec.1 = some s.cque.queue[s.cque.closeIndex] :=
      List.getElem?_eq_getElem hlt
    refine ⟨h.sent, fun T' closing hc' => ?_⟩
    injection hc' with _ hclosing
    rw [← hclosing, hread]
    exact ⟨_, rfl, List.getElem_mem hlt⟩
  · refine ⟨fun x hx => ?_, fun T' closing' hc' => by cases hc'⟩
    rcases List.mem_append.1 hx with hx | hx
    · exact h.sent x hx
    · rw [List.mem_singleton.1 hx]
      exact h.inFlight T closing hc
  · exact ⟨h.sent, fun T' closing' hc' => by cases hc'⟩

/-- A run that receives a trade before each `exec` keeps the invariant of the reads. -/
theorem closings_of_trade {size now interval : ℤ} (hs : 2 ≤ size) {s₀ s : Process Price}
    (h0 : start size now interval = some s₀) {evs : List (Event Price)}
    (hrun : (machine interval).run s₀ evs = some s)
    (htrade : ∀ pre post, evs = pre ++ .exec :: post → ∃ elem, .trade elem ∈ pre) :
    Closings s := by
  refine Guarded.run_induction (P := fun pre m => pre <+: evs → Closings m) ?_ ?_ hrun
    (List.prefix_refl _)
  · intro _
    obtain ⟨F, -, rfl⟩ := Process.start_eq_some h0
    exact ⟨fun x hx => absurd hx List.not_mem_nil, fun T closing hc => by cases hc⟩
  · rintro pre m e m' hm ih hstep ⟨post, hevs⟩
    rw [List.append_assoc] at hevs
    refine step_closings hstep (ih ⟨_, hevs⟩) ?_
    rintro rfl
    exact (Process.closeIndex_lt_iff hs h0 hm).2 (htrade pre post hevs.symm)

/-- A run's reads are in bounds, and its ticks carry stored elements, exactly when a trade is received
before each `exec`. -/
theorem reads_in_bounds_iff {size now interval : ℤ} (hs : 2 ≤ size) {s₀ s : Process Price}
    (h0 : start size now interval = some s₀) {evs : List (Event Price)}
    (hrun : (machine interval).run s₀ evs = some s) :
    ReadsInBounds interval s₀ evs ↔
      ∀ pre post, evs = pre ++ .exec :: post → ∃ elem, .trade elem ∈ pre := by
  constructor
  · intro h pre post hevs
    obtain ⟨m, hm⟩ := Guarded.run_isPrefix ⟨_, hevs.symm⟩ hrun
    exact (Process.closeIndex_lt_iff hs h0 hm).1 (h.exec_lt pre post m hevs hm)
  · intro htrade
    constructor
    · intro pre post m hevs hm
      exact (Process.closeIndex_lt_iff hs h0 hm).2 (htrade pre post hevs)
    · intro s' hs' x hx
      obtain rfl : s = s' := Option.some.inj (hrun.symm.trans hs')
      obtain ⟨elem, hclosing, helem⟩ := (closings_of_trade hs h0 hrun htrade).sent x hx
      exact ⟨elem, hclosing, helem, Process.trade_mem_of_mem_queue hs h0 hrun helem⟩

/-- A run that receives a trade before its first `exec` reads in bounds. -/
theorem reads_in_bounds_of_trade :
    2 ≤ (1000 : ℤ) ∧
      ∃ s₀ s : Process ℤ, start 1000 0 1000 = some s₀ ∧
        (machine 1000).run s₀ [.trade (5, 7), .exec, .send] = some s ∧
          ReadsInBounds 1000 s₀ [.trade (5, 7), .exec, .send] := by
  refine ⟨by decide, _, _, rfl, rfl, ?_⟩
  refine (reads_in_bounds_iff (by decide) rfl rfl).2 ?_
  intro pre post hevs
  rcases List.cons_eq_append_iff.1 hevs with ⟨rfl, h⟩ | ⟨pre', rfl, -⟩
  · cases h
  · exact ⟨(5, 7), List.mem_cons_self⟩

/-- The first `exec` of an aggregator that has received nothing reads the empty vector. -/
theorem not_reads_in_bounds_start :
    ∃ s₀ s : Process ℤ, start 1000 0 1000 = some s₀ ∧
      (machine 1000).run s₀ [.exec, .send] = some s ∧
        ¬ ReadsInBounds 1000 s₀ [.exec, .send] := by
  refine ⟨_, _, rfl, rfl, fun h => ?_⟩
  have hlt := h.exec_lt [] [.send] _ rfl rfl
  exact absurd hlt (by decide)

/-! ## The ticks as a stream -/

/-- The ticks of a run, as the build of a feed sends them. -/
def ticks (feed : Feed) (s : Process Price) : List (Message Price) :=
  s.sent.filterMap fun x => x.closing.map (tickMessage feed x.T)

/-- Ticks that are labelled by a progression, and all carry a closing, are those of `send_every`. -/
theorem filterMap_tickMessage (feed : Feed) {interval F : ℤ} {sent : List (Sent Price)}
    (hT : sent.map Sent.T = Grid.progression interval F sent.length)
    (hclosing : ∀ x ∈ sent, ∃ elem, x.closing = some elem) :
    sent.filterMap (fun x => x.closing.map (tickMessage feed x.T)) =
      sendEvery feed interval F (sent.filterMap Sent.closing) := by
  induction sent generalizing F with
  | nil => rfl
  | cons x sent ih =>
    obtain ⟨hF, hrest⟩ := List.cons.inj hT
    obtain ⟨elem, helem⟩ := hclosing x List.mem_cons_self
    rw [List.filterMap_cons_some (by rw [helem]; rfl), List.filterMap_cons_some helem, sendEvery,
      hF, ih hrest fun y hy => hclosing y (List.mem_cons_of_mem _ hy)]

/-- The ticks of a run that receives a trade before each `exec` are those of `send_every`, from the
label that `get_closest_tp` computed on, for closings that are trades received. -/
theorem ticks_eq_sendEvery (feed : Feed) {size now interval F : ℤ} (hs : 2 ≤ size)
    (hF : getClosestTp now interval = some F) {s₀ s : Process Price}
    (h0 : start size now interval = some s₀) {evs : List (Event Price)}
    (hrun : (machine interval).run s₀ evs = some s)
    (htrade : ∀ pre post, evs = pre ++ .exec :: post → ∃ elem, .trade elem ∈ pre) :
    ∃ closings, ticks feed s = sendEvery feed interval F closings ∧
      ∀ elem ∈ closings, .trade elem ∈ evs := by
  have hstored := (closings_of_trade hs h0 hrun htrade).sent
  refine ⟨s.sent.filterMap Sent.closing, ?_, ?_⟩
  · obtain ⟨-, hT⟩ := Process.labels_eq hF h0 hrun
    refine filterMap_tickMessage feed hT fun x hx => ?_
    obtain ⟨elem, helem, -⟩ := hstored x hx
    exact ⟨elem, helem⟩
  · intro elem helem
    obtain ⟨x, hx, hclosing⟩ := List.mem_filterMap.1 helem
    obtain ⟨elem', helem', hmem⟩ := hstored x hx
    obtain rfl : elem' = elem := Option.some.inj (helem'.symm.trans hclosing)
    exact Process.trade_mem_of_mem_queue hs h0 hrun hmem

end Typhoon.Aggregator
