import Typhoon.Library.Interleave
import Typhoon.Library.Machine

/-!
# Two senders and a receiver

Two guarded machines send messages to one machine, each over a link of its own that neither loses,
repeats nor reorders them. Messages may stay on a link for any time, and those of the two links arrive
in any order. `run_delivered` says what every run keeps: what has been received interleaves what the
two senders sent first, the rest is on the links, and the receiver is where the messages received so
far have led it. For the other direction, `exists_run_left`, `exists_run_right` and `exists_drain` run
the senders and empty the links from any state.

The senders may also send encodings of their messages to a receiver that decodes them (`encoded`). As long
as it takes every encoding for its message, the system does what the one without encodings does
(`run_encoded`).
-/

/-- Two senders and a receiver: the machines, and what a sender has sent by the time it is in a
state. -/
structure Fanin (σ₁ ι₁ σ₂ ι₂ μ τ ω : Type*) where
  left : Guarded σ₁ ι₁
  right : Guarded σ₂ ι₂
  leftSent : σ₁ → List μ
  rightSent : σ₂ → List μ
  receiver : Machine τ μ ω

namespace Fanin

variable {σ₁ ι₁ σ₂ ι₂ μ τ ω : Type*}

/-- The state of the two senders, of their links, and of the receiver with its outputs so far. -/
structure State (σ₁ σ₂ μ τ ω : Type*) where
  left : σ₁
  right : σ₂
  leftLink : List μ
  rightLink : List μ
  receiver : τ
  outputs : List ω

/-- A step of a sender, or the arrival of the first message of a link. -/
inductive Event (ι₁ ι₂ : Type*)
  | left (i : ι₁)
  | right (i : ι₂)
  | receiveLeft
  | receiveRight

/-- The two senders and the receiver as one machine. What a sender's step sends goes on its link. -/
def machine (F : Fanin σ₁ ι₁ σ₂ ι₂ μ τ ω) : Guarded (State σ₁ σ₂ μ τ ω) (Event ι₁ ι₂) where
  step s
    | .left i => (F.left.step s.left i).map fun l =>
      { s with
        left := l
        leftLink := s.leftLink ++ (F.leftSent l).drop (F.leftSent s.left).length }
    | .right i => (F.right.step s.right i).map fun r =>
      { s with
        right := r
        rightLink := s.rightLink ++ (F.rightSent r).drop (F.rightSent s.right).length }
    | .receiveLeft =>
      match s.leftLink with
      | [] => none
      | m :: link =>
        some { s with
          leftLink := link
          receiver := (F.receiver.step s.receiver m).1
          outputs := s.outputs ++ [(F.receiver.step s.receiver m).2] }
    | .receiveRight =>
      match s.rightLink with
      | [] => none
      | m :: link =>
        some { s with
          rightLink := link
          receiver := (F.receiver.step s.receiver m).1
          outputs := s.outputs ++ [(F.receiver.step s.receiver m).2] }

/-- A step is one of a sender, whose new messages go onto its link, or an arrival from one of the links. -/
theorem step_cases {F : Fanin σ₁ ι₁ σ₂ ι₂ μ τ ω} {s s' : State σ₁ σ₂ μ τ ω} {e : Event ι₁ ι₂}
    (h : F.machine.step s e = some s') :
    (∃ i l, e = .left i ∧ F.left.step s.left i = some l ∧ s' = { s with
      left := l
      leftLink := s.leftLink ++ (F.leftSent l).drop (F.leftSent s.left).length }) ∨
    (∃ i r, e = .right i ∧ F.right.step s.right i = some r ∧ s' = { s with
      right := r
      rightLink := s.rightLink ++ (F.rightSent r).drop (F.rightSent s.right).length }) ∨
    (∃ m link, e = .receiveLeft ∧ s.leftLink = m :: link ∧ s' = { s with
      leftLink := link
      receiver := (F.receiver.step s.receiver m).1
      outputs := s.outputs ++ [(F.receiver.step s.receiver m).2] }) ∨
    (∃ m link, e = .receiveRight ∧ s.rightLink = m :: link ∧ s' = { s with
      rightLink := link
      receiver := (F.receiver.step s.receiver m).1
      outputs := s.outputs ++ [(F.receiver.step s.receiver m).2] }) := by
  cases e with
  | left i =>
    obtain ⟨l, hl, hs⟩ := Option.map_eq_some_iff.1 h
    exact .inl ⟨i, l, rfl, hl, hs.symm⟩
  | right i =>
    obtain ⟨r, hr, hs⟩ := Option.map_eq_some_iff.1 h
    exact .inr (.inl ⟨i, r, rfl, hr, hs.symm⟩)
  | receiveLeft =>
    cases hlink : s.leftLink with
    | nil => simp [machine, hlink] at h
    | cons m link =>
      exact .inr (.inr (.inl ⟨m, link, rfl, rfl, by simpa [machine, hlink] using h.symm⟩))
  | receiveRight =>
    cases hlink : s.rightLink with
    | nil => simp [machine, hlink] at h
    | cons m link =>
      exact .inr (.inr (.inr ⟨m, link, rfl, rfl, by simpa [machine, hlink] using h.symm⟩))

/-- What the left sender does in a run. -/
def leftEvents (evs : List (Event ι₁ ι₂)) : List ι₁ :=
  evs.filterMap fun
    | .left i => some i
    | _ => none

/-- What the right sender does in a run. -/
def rightEvents (evs : List (Event ι₁ ι₂)) : List ι₂ :=
  evs.filterMap fun
    | .right i => some i
    | _ => none

/-- What the left sender does in a run in two parts. -/
theorem leftEvents_append (evs evs' : List (Event ι₁ ι₂)) :
    leftEvents (evs ++ evs') = leftEvents evs ++ leftEvents evs' :=
  List.filterMap_append

/-- What the right sender does in a run in two parts. -/
theorem rightEvents_append (evs evs' : List (Event ι₁ ι₂)) :
    rightEvents (evs ++ evs') = rightEvents evs ++ rightEvents evs' :=
  List.filterMap_append

/-- The first message of the left link can arrive. -/
theorem step_receiveLeft (F : Fanin σ₁ ι₁ σ₂ ι₂ μ τ ω) {s : State σ₁ σ₂ μ τ ω} {m : μ}
    {link : List μ} (h : s.leftLink = m :: link) : F.machine.step s .receiveLeft = some { s with
      leftLink := link
      receiver := (F.receiver.step s.receiver m).1
      outputs := s.outputs ++ [(F.receiver.step s.receiver m).2] } := by
  simp only [machine, h]

/-- The first message of the right link can arrive. -/
theorem step_receiveRight (F : Fanin σ₁ ι₁ σ₂ ι₂ μ τ ω) {s : State σ₁ σ₂ μ τ ω} {m : μ}
    {link : List μ} (h : s.rightLink = m :: link) : F.machine.step s .receiveRight = some { s with
      rightLink := link
      receiver := (F.receiver.step s.receiver m).1
      outputs := s.outputs ++ [(F.receiver.step s.receiver m).2] } := by
  simp only [machine, h]

section Run

variable {F : Fanin σ₁ ι₁ σ₂ ι₂ μ τ ω} {s₀ s : State σ₁ σ₂ μ τ ω} {evs : List (Event ι₁ ι₂)}

/-- The senders of a run make runs of their own. -/
theorem run_senders (hrun : F.machine.run s₀ evs = some s) :
    F.left.run s₀.left (leftEvents evs) = some s.left ∧
      F.right.run s₀.right (rightEvents evs) = some s.right := by
  refine Guarded.run_induction (P := fun evs s =>
    F.left.run s₀.left (leftEvents evs) = some s.left ∧
      F.right.run s₀.right (rightEvents evs) = some s.right) ⟨rfl, rfl⟩ ?_ hrun
  rintro evs s e s' - ⟨hl, hr⟩ hstep
  rw [leftEvents_append, rightEvents_append]
  rcases step_cases hstep with ⟨i, l, rfl, hi, rfl⟩ | ⟨i, r, rfl, hi, rfl⟩ |
    ⟨m, link, rfl, -, rfl⟩ | ⟨m, link, rfl, -, rfl⟩
  · exact ⟨Guarded.run_concat_eq_some.2 ⟨_, hl, hi⟩, by simpa [rightEvents] using hr⟩
  · exact ⟨by simpa [leftEvents] using hl, Guarded.run_concat_eq_some.2 ⟨_, hr, hi⟩⟩
  · exact ⟨by simpa [leftEvents] using hl, by simpa [rightEvents] using hr⟩
  · exact ⟨by simpa [leftEvents] using hl, by simpa [rightEvents] using hr⟩

/-- What has been delivered when the receiver, started in `t₀`, has received `cs`: the first messages
`as` of the left sender and `bs` of the right one. -/
structure Delivered (F : Fanin σ₁ ι₁ σ₂ ι₂ μ τ ω) (t₀ : τ) (as bs cs : List μ)
    (s : State σ₁ σ₂ μ τ ω) : Prop where
  left_eq : F.leftSent s.left = as ++ s.leftLink
  right_eq : F.rightSent s.right = bs ++ s.rightLink
  interleave : Interleave as bs cs
  receiver_eq : s.receiver = F.receiver.state t₀ cs
  outputs_eq : s.outputs = F.receiver.outputs t₀ cs

/-- Nothing has been delivered before the senders send. -/
theorem delivered_nil {t₀ : τ} {l : σ₁} {r : σ₂} (hl : F.leftSent l = []) (hr : F.rightSent r = []) :
    Delivered F t₀ [] [] [] ⟨l, r, [], [], t₀, []⟩ :=
  ⟨hl, hr, .nil, rfl, rfl⟩

/-- A list that a prefix of another drops is what follows it. -/
theorem append_drop_of_isPrefix {as bs : List μ} (h : as <+: bs) : as ++ bs.drop as.length = bs := by
  obtain ⟨cs, rfl⟩ := h
  rw [List.drop_left]

/-- A step delivers at most one more message, when what is sent is never taken back. -/
theorem step_delivered (hleft : ∀ l i l', F.left.step l i = some l' → F.leftSent l <+: F.leftSent l')
    (hright : ∀ r i r', F.right.step r i = some r' → F.rightSent r <+: F.rightSent r')
    {t₀ : τ} {as bs cs : List μ} {s s' : State σ₁ σ₂ μ τ ω} {e : Event ι₁ ι₂}
    (h : Delivered F t₀ as bs cs s) (hstep : F.machine.step s e = some s') :
    ∃ as' bs' cs', as <+: as' ∧ bs <+: bs' ∧ cs <+: cs' ∧ Delivered F t₀ as' bs' cs' s' := by
  rcases step_cases hstep with ⟨i, l, rfl, hi, rfl⟩ | ⟨i, r, rfl, hi, rfl⟩ |
    ⟨m, link, rfl, hlink, rfl⟩ | ⟨m, link, rfl, hlink, rfl⟩
  · refine ⟨as, bs, cs, List.prefix_refl _, List.prefix_refl _, List.prefix_refl _, ?_,
      h.right_eq, h.interleave, h.receiver_eq, h.outputs_eq⟩
    show F.leftSent l = as ++ (s.leftLink ++ _)
    rw [← List.append_assoc, ← h.left_eq, append_drop_of_isPrefix (hleft _ _ _ hi)]
  · refine ⟨as, bs, cs, List.prefix_refl _, List.prefix_refl _, List.prefix_refl _, h.left_eq, ?_,
      h.interleave, h.receiver_eq, h.outputs_eq⟩
    show F.rightSent r = bs ++ (s.rightLink ++ _)
    rw [← List.append_assoc, ← h.right_eq, append_drop_of_isPrefix (hright _ _ _ hi)]
  · refine ⟨as ++ [m], bs, cs ++ [m], List.prefix_append _ _, List.prefix_refl _,
      List.prefix_append _ _, ?_, h.right_eq, h.interleave.concat_left m, ?_, ?_⟩
    · rw [h.left_eq, hlink, List.append_assoc]
      rfl
    · rw [Machine.state_concat, ← h.receiver_eq]
    · rw [Machine.outputs_concat, ← h.receiver_eq, ← h.outputs_eq]
  · refine ⟨as, bs ++ [m], cs ++ [m], List.prefix_refl _, List.prefix_append _ _,
      List.prefix_append _ _, h.left_eq, ?_, h.interleave.concat_right m, ?_, ?_⟩
    · rw [h.right_eq, hlink, List.append_assoc]
      rfl
    · rw [Machine.state_concat, ← h.receiver_eq]
    · rw [Machine.outputs_concat, ← h.receiver_eq, ← h.outputs_eq]

/-- What a run delivers goes on what had been delivered before it. -/
theorem run_delivered (hleft : ∀ l i l', F.left.step l i = some l' → F.leftSent l <+: F.leftSent l')
    (hright : ∀ r i r', F.right.step r i = some r' → F.rightSent r <+: F.rightSent r')
    {t₀ : τ} {as bs cs : List μ} (h : Delivered F t₀ as bs cs s₀)
    (hrun : F.machine.run s₀ evs = some s) :
    ∃ as' bs' cs', as <+: as' ∧ bs <+: bs' ∧ cs <+: cs' ∧ Delivered F t₀ as' bs' cs' s := by
  refine Guarded.run_induction (P := fun _ s =>
    ∃ as' bs' cs', as <+: as' ∧ bs <+: bs' ∧ cs <+: cs' ∧ Delivered F t₀ as' bs' cs' s) ?_ ?_ hrun
  · exact ⟨as, bs, cs, List.prefix_refl _, List.prefix_refl _, List.prefix_refl _, h⟩
  · rintro evs s e s' - ⟨as', bs', cs', has, hbs, hcs, ih⟩ hstep
    obtain ⟨as'', bs'', cs'', has', hbs', hcs', hs'⟩ := step_delivered hleft hright ih hstep
    exact ⟨as'', bs'', cs'', has.trans has', hbs.trans hbs', hcs.trans hcs', hs'⟩

end Run

/-- Any run of the left sender is possible. -/
theorem exists_run_left (F : Fanin σ₁ ι₁ σ₂ ι₂ μ τ ω) (s : State σ₁ σ₂ μ τ ω) {is : List ι₁} {l : σ₁}
    (h : F.left.run s.left is = some l) :
    ∃ s', F.machine.run s (is.map .left) = some s' ∧ s'.left = l ∧ s'.right = s.right := by
  induction is generalizing s with
  | nil => exact ⟨s, rfl, Option.some.inj h, rfl⟩
  | cons i is ih =>
    obtain ⟨l', hl', hrest⟩ := Option.bind_eq_some_iff.1 h
    let m : State σ₁ σ₂ μ τ ω := { s with
      left := l'
      leftLink := s.leftLink ++ (F.leftSent l').drop (F.leftSent s.left).length }
    have hstep : F.machine.step s (.left i) = some m := by simp [machine, hl', m]
    obtain ⟨s', hrun, hl, hr⟩ := ih m hrest
    exact ⟨s', by rw [List.map_cons, Guarded.run_cons_of_step hstep, hrun], hl, hr⟩

/-- Any run of the right sender is possible. -/
theorem exists_run_right (F : Fanin σ₁ ι₁ σ₂ ι₂ μ τ ω) (s : State σ₁ σ₂ μ τ ω) {is : List ι₂}
    {r : σ₂} (h : F.right.run s.right is = some r) :
    ∃ s', F.machine.run s (is.map .right) = some s' ∧ s'.left = s.left ∧ s'.right = r := by
  induction is generalizing s with
  | nil => exact ⟨s, rfl, rfl, Option.some.inj h⟩
  | cons i is ih =>
    obtain ⟨r', hr', hrest⟩ := Option.bind_eq_some_iff.1 h
    let m : State σ₁ σ₂ μ τ ω := { s with
      right := r'
      rightLink := s.rightLink ++ (F.rightSent r').drop (F.rightSent s.right).length }
    have hstep : F.machine.step s (.right i) = some m := by simp [machine, hr', m]
    obtain ⟨s', hrun, hl, hr⟩ := ih m hrest
    exact ⟨s', by rw [List.map_cons, Guarded.run_cons_of_step hstep, hrun], hl, hr⟩

/-- The links can be emptied. -/
theorem exists_drain (F : Fanin σ₁ ι₁ σ₂ ι₂ μ τ ω) (s : State σ₁ σ₂ μ τ ω) :
    ∃ evs s', F.machine.run s evs = some s' ∧ s'.left = s.left ∧ s'.right = s.right ∧
      s'.leftLink = [] ∧ s'.rightLink = [] := by
  induction hn : s.leftLink.length + s.rightLink.length generalizing s with
  | zero =>
    exact ⟨[], s, rfl, rfl, rfl, List.length_eq_zero_iff.1 (by omega),
      List.length_eq_zero_iff.1 (by omega)⟩
  | succ n ih =>
    -- One message arrives, of the left link if there is one on it.
    obtain ⟨e, m, hstep, hl, hr, hm⟩ : ∃ e m, F.machine.step s e = some m ∧ m.left = s.left ∧
        m.right = s.right ∧ m.leftLink.length + m.rightLink.length = n := by
      cases hleft : s.leftLink with
      | cons msg link =>
        refine ⟨.receiveLeft, _, F.step_receiveLeft hleft, rfl, rfl, ?_⟩
        rw [hleft, List.length_cons] at hn
        show link.length + s.rightLink.length = n
        omega
      | nil =>
        cases hright : s.rightLink with
        | nil => simp [hleft, hright] at hn
        | cons msg link =>
          refine ⟨.receiveRight, _, F.step_receiveRight hright, rfl, rfl, ?_⟩
          rw [hleft, hright, List.length_cons] at hn
          show s.leftLink.length + link.length = n
          rw [hleft]
          omega
    obtain ⟨evs, s', hrun, hl', hr', hlinks⟩ := ih m hm
    exact ⟨e :: evs, s', (Guarded.run_cons_of_step hstep evs).trans hrun, hl'.trans hl,
      hr'.trans hr, hlinks⟩

/-! ## Encoded messages -/

variable {ν τ' ω' : Type*}

/-- The same two senders, where the links carry encodings, and a receiver of encodings. -/
def encoded (F : Fanin σ₁ ι₁ σ₂ ι₂ μ τ ω) (encode : μ → ν) (receiver : Machine τ' ν ω') :
    Fanin σ₁ ι₁ σ₂ ι₂ ν τ' ω' where
  left := F.left
  right := F.right
  leftSent s := (F.leftSent s).map encode
  rightSent s := (F.rightSent s).map encode
  receiver := receiver

/-- A state with its links encoded, and the state and outputs of the receiver in the terms of another. -/
def State.encoded (encode : μ → ν) (state : τ → τ') (answer : ω → ω') (s : State σ₁ σ₂ μ τ ω) :
    State σ₁ σ₂ ν τ' ω' where
  left := s.left
  right := s.right
  leftLink := s.leftLink.map encode
  rightLink := s.rightLink.map encode
  receiver := state s.receiver
  outputs := s.outputs.map answer

section Encoded

variable {F : Fanin σ₁ ι₁ σ₂ ι₂ μ τ ω} {encode : μ → ν} {receiver : Machine τ' ν ω'} {state : τ → τ'}
  {answer : ω → ω'} {Good : μ → Prop}

/-- A step on encodings, where the receiver takes those on the links for their messages. -/
theorem step_encoded (hstep : ∀ t m, Good m → receiver.step (state t) (encode m) =
      (state (F.receiver.step t m).1, answer (F.receiver.step t m).2))
    {s : State σ₁ σ₂ μ τ ω} (hleft : ∀ m ∈ s.leftLink, Good m) (hright : ∀ m ∈ s.rightLink, Good m)
    (e : Event ι₁ ι₂) :
    (F.encoded encode receiver).machine.step (s.encoded encode state answer) e =
      (F.machine.step s e).map (State.encoded encode state answer) := by
  cases e with
  | left i =>
    show (F.left.step s.left i).map _ = ((F.left.step s.left i).map _).map _
    rw [Option.map_map]
    congr 1
    funext l
    simp [State.encoded, encoded]
  | right i =>
    show (F.right.step s.right i).map _ = ((F.right.step s.right i).map _).map _
    rw [Option.map_map]
    congr 1
    funext r
    simp [State.encoded, encoded]
  | receiveLeft =>
    cases hlink : s.leftLink with
    | nil => simp [machine, State.encoded, hlink]
    | cons m link =>
      rw [hlink] at hleft
      have hm := hstep s.receiver m (hleft m List.mem_cons_self)
      simp [machine, State.encoded, encoded, hlink, hm]
  | receiveRight =>
    cases hlink : s.rightLink with
    | nil => simp [machine, State.encoded, hlink]
    | cons m link =>
      rw [hlink] at hright
      have hm := hstep s.receiver m (hright m List.mem_cons_self)
      simp [machine, State.encoded, encoded, hlink, hm]

/-- Every run on encodings is a run of the messages, when the receiver takes the encoding of whatever has
been sent for its message. -/
theorem run_encoded (hstep : ∀ t m, Good m → receiver.step (state t) (encode m) =
      (state (F.receiver.step t m).1, answer (F.receiver.step t m).2))
    (hleft : ∀ l i l', F.left.step l i = some l' → F.leftSent l <+: F.leftSent l')
    (hright : ∀ r i r', F.right.step r i = some r' → F.rightSent r <+: F.rightSent r')
    {t₀ : τ} {s₀ : State σ₁ σ₂ μ τ ω} (h0 : Delivered F t₀ [] [] [] s₀) {evs : List (Event ι₁ ι₂)}
    {u : State σ₁ σ₂ ν τ' ω'}
    (hrun : (F.encoded encode receiver).machine.run (s₀.encoded encode state answer) evs = some u)
    (hgoodLeft : ∀ m ∈ F.leftSent u.left, Good m) (hgoodRight : ∀ m ∈ F.rightSent u.right, Good m) :
    ∃ s, F.machine.run s₀ evs = some s ∧ u = s.encoded encode state answer := by
  revert hgoodLeft hgoodRight
  refine Guarded.run_induction (P := fun evs u => (∀ m ∈ F.leftSent u.left, Good m) →
    (∀ m ∈ F.rightSent u.right, Good m) →
      ∃ s, F.machine.run s₀ evs = some s ∧ u = s.encoded encode state answer)
    (fun _ _ => ⟨s₀, rfl, rfl⟩) ?_ hrun
  intro evs u e u' _ ih hu hgoodLeft hgoodRight
  -- What had been sent before the step is what has been sent after it, or less.
  have hsent : F.leftSent u.left <+: F.leftSent u'.left ∧ F.rightSent u.right <+: F.rightSent u'.right := by
    rcases step_cases hu with ⟨i, l, rfl, hi, rfl⟩ | ⟨i, r, rfl, hi, rfl⟩ |
      ⟨m, link, rfl, -, rfl⟩ | ⟨m, link, rfl, -, rfl⟩
    · exact ⟨hleft _ _ _ hi, List.prefix_refl _⟩
    · exact ⟨List.prefix_refl _, hright _ _ _ hi⟩
    · exact ⟨List.prefix_refl _, List.prefix_refl _⟩
    · exact ⟨List.prefix_refl _, List.prefix_refl _⟩
  have hgoodLeft' : ∀ m ∈ F.leftSent u.left, Good m := fun m hm => hgoodLeft m (hsent.1.subset hm)
  have hgoodRight' : ∀ m ∈ F.rightSent u.right, Good m := fun m hm => hgoodRight m (hsent.2.subset hm)
  obtain ⟨s, hs, rfl⟩ := ih hgoodLeft' hgoodRight'
  -- What is on a link has been sent.
  obtain ⟨as, bs, cs, -, -, -, h⟩ := run_delivered hleft hright h0 hs
  have hlinkLeft : ∀ m ∈ s.leftLink, Good m := fun m hm =>
    hgoodLeft' m (show m ∈ F.leftSent s.left by rw [h.left_eq]; exact List.mem_append_right as hm)
  have hlinkRight : ∀ m ∈ s.rightLink, Good m := fun m hm =>
    hgoodRight' m (show m ∈ F.rightSent s.right by rw [h.right_eq]; exact List.mem_append_right bs hm)
  rw [step_encoded hstep hlinkLeft hlinkRight] at hu
  obtain ⟨s', hs', rfl⟩ := Option.map_eq_some_iff.1 hu
  exact ⟨s', Guarded.run_concat_eq_some.2 ⟨s, hs, hs'⟩, rfl⟩

end Encoded

end Fanin
