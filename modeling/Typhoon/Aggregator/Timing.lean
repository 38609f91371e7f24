import Typhoon.Aggregator.Process

/-!
# When ticks are taken

`send_every` sleeps until a label before it takes the tick with that label, except for the first one:
the loop is entered with the label that `get_closest_tp` rounded up, and calls `exec` at once.
`punctual_iff` says what follows. A run takes every tick at or after its label exactly when its first
`exec` is late enough, which is when `interval - now % interval` milliseconds have passed since
`get_closest_tp` read the clock.
-/

namespace Typhoon.Aggregator

open Process (machine start)

variable {Price : Type*}

/-- A run takes and sends each tick at or after its label, and receives before each tick every trade
that comes before the label. -/
structure Punctual (interval : ℤ) (s₀ : Process Price) (evs : List (Event Price)) : Prop where
  /-- `exec` is called at or after the label. -/
  exec_at : ∀ pre post s T, evs = pre ++ .exec :: post → (machine interval).run s₀ pre = some s →
    s.consumer = .exec T → T ≤ s.clock
  /-- The tick is sent at or after the label. -/
  send_at : ∀ pre post s T closing, evs = pre ++ .send :: post →
    (machine interval).run s₀ pre = some s → s.consumer = .send T closing → T ≤ s.clock
  /-- A trade that is received after `exec` was called for a label is received at or after the
  label. -/
  trade_after : ∀ pre mid post elem s s' T, evs = pre ++ .exec :: mid ++ .trade elem :: post →
    (machine interval).run s₀ pre = some s → s.consumer = .exec T →
    (machine interval).run s₀ (pre ++ .exec :: mid) = some s' → T ≤ s'.clock

/-- What the consumer thread may be at once its first `exec` has been called: a tick in the making is
past its label. -/
def PastLabel (s : Process Price) : Prop :=
  match s.consumer with
  | .exec T => T ≤ s.clock
  | .send T _ => T ≤ s.clock
  | .sleep _ => True

namespace Process

variable {size now interval F : ℤ} {s₀ s : Process Price} {evs : List (Event Price)}

/-- Until its first `exec`, the consumer thread is at the label it began with. -/
theorem consumer_of_not_exec (hF : getClosestTp now interval = some F)
    (h0 : start size now interval = some s₀) (hrun : (machine interval).run s₀ evs = some s)
    (hexec : .exec ∉ evs) : s.consumer = .exec F := by
  obtain rfl := start_eq hF h0
  refine Guarded.run_induction (P := fun evs s => .exec ∉ evs → s.consumer = .exec F) ?_ ?_ hrun
    hexec
  · exact fun _ => rfl
  · intro evs s e s' _ ih hstep hexec
    rw [List.mem_append, not_or] at hexec
    have hc := ih hexec.1
    rcases step_cases hstep with ⟨ms, rfl, rfl⟩ | ⟨elem, rfl, rfl⟩ | ⟨T, rfl, -, rfl⟩ |
      ⟨T, closing, rfl, hc', rfl⟩ | ⟨T, rfl, hc', -, rfl⟩
    · exact hc
    · exact hc
    · exact absurd (List.mem_singleton_self _) hexec.2
    · rw [hc] at hc'; cases hc'
    · rw [hc] at hc'; cases hc'

/-- A run calls its first `exec`, if any, when the clock has reached `F` from the reading `now`. -/
def FirstAt (F now : ℤ) (evs : List (Event Price)) : Prop :=
  ∀ pre post, evs = pre ++ .exec :: post → .exec ∉ pre → F ≤ now + elapsed pre

/-- The first `exec` of a run is that of each part of it that has one. -/
theorem FirstAt.of_append {pre post : List (Event Price)} (h : FirstAt F now (pre ++ post)) :
    FirstAt F now pre := by
  intro pre' post' hpre
  refine h pre' (post' ++ post) ?_
  rw [hpre, List.append_assoc, List.cons_append]

/-- If the first `exec` of a run is called at or after the first label, then from there on every tick
in the making is past its label: later ticks are only taken after `sleep_until`. -/
theorem pastLabel_of_exec (hF : getClosestTp now interval = some F)
    (h0 : start size now interval = some s₀) (hrun : (machine interval).run s₀ evs = some s)
    (hfirst : FirstAt F now evs) (hexec : .exec ∈ evs) : PastLabel s := by
  refine Guarded.run_induction (P := fun evs s => FirstAt F now evs → .exec ∈ evs → PastLabel s)
    ?_ ?_ hrun hfirst hexec
  · exact fun _ h => absurd h List.not_mem_nil
  · intro evs s e s' hrun ih hstep hfirst hexec
    by_cases hbefore : .exec ∈ evs
    -- Not the first `exec`: the only step to a new label is out of `sleep_until`.
    · have hs := ih hfirst.of_append hbefore
      unfold PastLabel at hs ⊢
      rcases step_cases hstep with ⟨ms, rfl, rfl⟩ | ⟨elem, rfl, rfl⟩ | ⟨T, rfl, hc, rfl⟩ |
        ⟨T, closing, rfl, hc, rfl⟩ | ⟨T, rfl, hc, hclock, rfl⟩
      · cases hc : s.consumer <;> simp only [hc] at hs ⊢ <;> omega
      · exact hs
      · rw [hc] at hs; exact hs
      · trivial
      · exact hclock
    -- The first `exec`, taken for the label that the thread began with.
    · rw [List.mem_append, List.mem_singleton, or_iff_right hbefore] at hexec
      subst hexec
      have hc := consumer_of_not_exec hF h0 hrun hbefore
      have hlate := hfirst evs [] rfl hbefore
      rcases step_cases hstep with ⟨ms, he, -⟩ | ⟨elem, he, -⟩ | ⟨T, -, hc', rfl⟩ |
        ⟨T, closing, he, -, -⟩ | ⟨T, he, -, -, -⟩
      · cases he
      · cases he
      · rw [hc] at hc'
        obtain rfl : F = T := by injection hc'
        show F ≤ s.clock
        rw [clock_eq hrun, clock_of_start h0]
        exact hlate
      · cases he
      · cases he

/-- If the first `exec` of a run is called at or after the first label, each `exec` is called at or
after its label. -/
theorem label_le_of_exec (hF : getClosestTp now interval = some F)
    (h0 : start size now interval = some s₀) {pre post : List (Event Price)}
    (hfirst : FirstAt F now (pre ++ .exec :: post)) (hm : (machine interval).run s₀ pre = some s)
    {T : ℤ} (hc : s.consumer = .exec T) : T ≤ s.clock := by
  by_cases hexec : .exec ∈ pre
  · have hpast := pastLabel_of_exec hF h0 hm hfirst.of_append hexec
    unfold PastLabel at hpast
    rwa [hc] at hpast
  · rw [consumer_of_not_exec hF h0 hm hexec] at hc
    obtain rfl : F = T := by injection hc
    rw [clock_eq hm, clock_of_start h0]
    exact hfirst pre post rfl hexec

/-- If the first `exec` of a run is called at or after the first label, each tick is sent at or after
its label. -/
theorem label_le_of_send (hF : getClosestTp now interval = some F)
    (h0 : start size now interval = some s₀) (hrun : (machine interval).run s₀ evs = some s)
    (hfirst : FirstAt F now evs) {T : ℤ} {closing : Option (ℤ × Price)}
    (hc : s.consumer = .send T closing) : T ≤ s.clock := by
  by_cases hexec : .exec ∈ evs
  · have hpast := pastLabel_of_exec hF h0 hrun hfirst hexec
    unfold PastLabel at hpast
    rwa [hc] at hpast
  · rw [consumer_of_not_exec hF h0 hrun hexec] at hc
    cases hc

end Process

/-- A run takes every tick at or after its label exactly when `interval - now % interval`
milliseconds, the time from the first clock reading to the first label, have passed before its first
`exec`. -/
theorem punctual_iff {size now interval : ℤ} (hi : 0 < interval) (hn : 0 ≤ now)
    {s₀ s : Process Price} (h0 : start size now interval = some s₀) {evs : List (Event Price)}
    (hrun : (machine interval).run s₀ evs = some s) :
    Punctual interval s₀ evs ↔ ∀ pre post, evs = pre ++ .exec :: post → .exec ∉ pre →
      interval - now % interval ≤ elapsed pre := by
  have hF := getClosestTp_eq hi hn
  have hlate : (∀ pre post, evs = pre ++ .exec :: post → .exec ∉ pre →
      interval - now % interval ≤ elapsed pre) ↔
        Process.FirstAt (Grid.next interval now) now evs := by
    refine forall₄_congr fun pre post _ _ => ?_
    unfold Grid.next
    omega
  rw [hlate]
  constructor
  · intro h pre post hevs hpre
    obtain ⟨m, hm⟩ := Guarded.run_isPrefix ⟨_, hevs.symm⟩ hrun
    -- The first `exec` is the one for the label that the thread began with.
    have hc := Process.consumer_of_not_exec hF h0 hm hpre
    have hexec := h.exec_at pre post m _ hevs hm hc
    rwa [Process.clock_eq hm, Process.clock_of_start h0] at hexec
  · intro hfirst
    refine ⟨?_, ?_, ?_⟩
    · rintro pre post m T rfl hm hc
      exact Process.label_le_of_exec hF h0 hfirst hm hc
    · rintro pre post m T closing rfl hm hc
      exact Process.label_le_of_send hF h0 hm hfirst.of_append hc
    · rintro pre mid post elem m m' T rfl hm hc hm'
      rw [List.append_assoc] at hfirst
      -- The clock was past the label at the `exec`, and has not gone back since.
      have hT := Process.label_le_of_exec hF h0 hfirst hm hc
      have hmid : 0 ≤ elapsed (.exec :: mid : List (Event Price)) := elapsed_nonneg _
      rw [Process.clock_eq hm] at hT
      rw [Process.clock_eq hm', elapsed_append]
      omega

/-- A run that sleeps until the first label before its first `exec` takes its tick on time. -/
theorem punctual_of_advance :
    0 < (1000 : ℤ) ∧ (0 : ℤ) ≤ 0 ∧
      ∃ s₀ s : Process ℤ, start 1000 0 1000 = some s₀ ∧
        (machine 1000).run s₀ [.advance 1000, .exec, .send] = some s ∧
          Punctual 1000 s₀ [.advance 1000, .exec, .send] := by
  refine ⟨by decide, le_refl _, _, _, rfl, rfl, ?_⟩
  refine (punctual_iff (by decide) (le_refl _) rfl rfl).2 ?_
  intro pre post hevs hpre
  rcases List.cons_eq_append_iff.1 hevs with ⟨rfl, h⟩ | ⟨pre', rfl, -⟩
  · cases h
  · have := elapsed_nonneg pre'
    have hsum : elapsed (.advance 1000 :: pre') = 1000 + elapsed pre' := by simp [elapsed, Event.ms]
    rw [hsum]
    omega

/-- An aggregator started at the epoch takes its first tick, labelled 1000, at once. -/
theorem not_punctual_start :
    ∃ s₀ s : Process ℤ, start 1000 0 1000 = some s₀ ∧
      (machine 1000).run s₀ [.exec, .send] = some s ∧ ¬ Punctual 1000 s₀ [.exec, .send] := by
  refine ⟨_, _, rfl, rfl, fun h => ?_⟩
  have hexec := h.exec_at [] [.send] _ 1000 rfl rfl rfl
  exact absurd hexec (by decide)

end Typhoon.Aggregator
