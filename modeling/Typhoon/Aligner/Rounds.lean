import Typhoon.Library.Rounds
import Typhoon.Aligner.Entry

/-!
# The rounds of a label

What the aligner does on any sequence of messages, repeated ticks of one feed included. The messages
of a label fall into rounds, each ending at the first message after which both feeds have arrived. The
loop sends one record for each completed round, while it processes the round's last message, and
builds it from each feed's last message of the round. A label has an entry in the map exactly while
its round under way is not empty, and the entry holds the last message of that round, all of whose
messages are of one feed. `round_law` is the statement.

The proof follows the entry of the label through one round: it is the fold of the round so far
(`tickOf`), with a flag set for each feed that has arrived (`tickOf_eq`), so the record is sent when
the round is full and the entry starts again from nothing (`entryStep_entryOf`). `Rounds.run_cut`
does the rest.
-/

namespace Typhoon.Aligner

variable {Price : Type*}

/-- The messages of the feed with `id` one. -/
def binanceOf (r : List (Message Price)) : List (Message Price) := r.filter fun msg => msg.id = 1

/-- The messages of the other feed. -/
def bitmexOf (r : List (Message Price)) : List (Message Price) := r.filter fun msg => msg.id ≠ 1

/-- Both feeds have arrived. -/
def bothFeeds (r : List (Message Price)) : Bool :=
  (r.any fun msg => msg.id = 1) && r.any fun msg => msg.id ≠ 1

/-- The completed rounds of a label, and its round under way. -/
def rounds (T : ℤ) (msgs : List (Message Price)) : List (List (Message Price)) × List (Message Price) :=
  Rounds.cut bothFeeds (messagesAt T msgs)

/-- The record of a round of a label: each feed's last price and, in a `DEBUG` build, the delays of
the same two messages. -/
def roundRecord (DEBUG : Bool) (T : ℤ) (r : List (Message Price)) : Option (Record Price) :=
  (binanceOf r).getLast?.bind fun b =>
    (bitmexOf r).getLast?.map fun m =>
      ⟨T, b.p, m.p, if DEBUG then some ⟨some (T - b.t), some (T - m.t)⟩ else none⟩

/-- When both feeds have arrived, each has a last message. -/
theorem exists_last {r : List (Message Price)} (h : bothFeeds r = true) :
    ∃ b m, (binanceOf r).getLast? = some b ∧ (bitmexOf r).getLast? = some m := by
  simp only [bothFeeds, Bool.and_eq_true, List.any_eq_true] at h
  obtain ⟨⟨b, hb, hbid⟩, m, hm, hmid⟩ := h
  have hb' : binanceOf r ≠ [] := List.ne_nil_of_mem (List.mem_filter.2 ⟨hb, hbid⟩)
  have hm' : bitmexOf r ≠ [] := List.ne_nil_of_mem (List.mem_filter.2 ⟨hm, hmid⟩)
  exact ⟨_, _, List.getLast?_eq_some_getLast hb', List.getLast?_eq_some_getLast hm'⟩

/-- A round under way is of one feed. -/
theorem one_feed_of_open {r : List (Message Price)} (h : Rounds.Open bothFeeds r) :
    (∀ msg ∈ r, msg.id = 1) ∨ ∀ msg ∈ r, msg.id ≠ 1 := by
  by_contra hcon
  rw [not_or] at hcon
  push Not at hcon
  obtain ⟨⟨m, hm, hmid⟩, b, hb, hbid⟩ := hcon
  have hfull : bothFeeds r = true := by
    simp only [bothFeeds, Bool.and_eq_true, List.any_eq_true]
    exact ⟨⟨b, hb, by simpa using hbid⟩, m, hm, by simpa using hmid⟩
  rw [h r (List.prefix_refl r)] at hfull
  cases hfull

/-- What is sent at the end of a round, for the label of its last message. -/
def roundAnswer (DEBUG : Bool) (r : List (Message Price)) : Option (Record Price) :=
  r.getLast?.bind fun msg => roundRecord DEBUG msg.T r

/-- The record of a completed round of a label is the answer to its last message. -/
theorem roundAnswer_eq (DEBUG : Bool) {msgs : List (Message Price)} {T : ℤ}
    {r : List (Message Price)} (hr : r ∈ (rounds T msgs).1) :
    roundAnswer DEBUG r = roundRecord DEBUG T r := by
  obtain ⟨hflat, hclosed, -⟩ := Rounds.cut_spec bothFeeds rfl (messagesAt T msgs)
  have hne : r ≠ [] := by
    rintro rfl
    exact absurd (hclosed [] hr).1 Bool.false_ne_true
  have hlast : (r.getLast hne).T = T := by
    have hmem : r.getLast hne ∈ messagesAt T msgs := by
      rw [← hflat]
      exact List.mem_append_left _ (List.mem_flatten.2 ⟨r, hr, List.getLast_mem hne⟩)
    simpa using (List.mem_filter.1 hmem).2
  unfold roundAnswer
  rw [List.getLast?_eq_some_getLast hne, Option.bind_some, hlast]

variable [Zero Price]

/-- The tick of a label of which one feed alone has arrived, with `msg` last. -/
def soloTick (DEBUG : Bool) (msg : Message Price) : Tick Price :=
  if msg.id = 1 then ⟨msg.p, 0, true, false, if DEBUG then some msg.t else none, none⟩
  else ⟨0, msg.p, false, true, none, if DEBUG then some msg.t else none⟩

/-- The tick that the messages of a round build up. -/
def tickOf (DEBUG : Bool) (r : List (Message Price)) : Tick Price :=
  r.foldl (Tick.receive DEBUG) Tick.construct

/-- One more message of a round is received by its tick. -/
theorem tickOf_concat (DEBUG : Bool) (r : List (Message Price)) (msg : Message Price) :
    tickOf DEBUG (r ++ [msg]) = (tickOf DEBUG r).receive DEBUG msg :=
  List.foldl_concat _ _ _ _

/-- The tick of a round, field by field: each feed's half is set when the feed has arrived, and holds
its last message. -/
theorem tickOf_eq (DEBUG : Bool) (r : List (Message Price)) :
    tickOf DEBUG r =
      { p1 := ((binanceOf r).getLast?.map Message.p).getD 0
        p2 := ((bitmexOf r).getLast?.map Message.p).getD 0
        p1_set := r.any fun msg => msg.id = 1
        p2_set := r.any fun msg => msg.id ≠ 1
        t1 := if DEBUG then (binanceOf r).getLast?.map Message.t else none
        t2 := if DEBUG then (bitmexOf r).getLast?.map Message.t else none } := by
  induction r using List.reverseRecOn with
  | nil => cases DEBUG <;> rfl
  | append_singleton r msg ih =>
    rw [tickOf_concat, ih]
    by_cases hid : msg.id = 1
    · cases DEBUG <;> simp [Tick.receive, binanceOf, bitmexOf, hid]
    · cases DEBUG <;> simp [Tick.receive, binanceOf, bitmexOf, hid]

/-- The entry of a label whose round under way is `r`. -/
def entryOf (DEBUG : Bool) (r : List (Message Price)) : Option (Tick Price) :=
  if r = [] then none else some (tickOf DEBUG r)

/-- The tick that a message of a round under way is received by, a new one if there is none. -/
theorem entryOf_getD (DEBUG : Bool) (r : List (Message Price)) :
    (entryOf DEBUG r).getD Tick.construct = tickOf DEBUG r := by
  unfold entryOf
  split
  · next h => rw [h]; rfl
  · rfl

/-- A message of a label: if it makes the round full the record of the round is sent and the entry is
erased, and otherwise it joins the round. -/
theorem entryStep_entryOf (DEBUG : Bool) (r : List (Message Price)) (msg : Message Price) :
    entryStep DEBUG (entryOf DEBUG r) msg =
      if bothFeeds (r ++ [msg]) then (none, some ((tickOf DEBUG (r ++ [msg])).record DEBUG msg.T))
      else (entryOf DEBUG (r ++ [msg]), none) := by
  have hflags : ((tickOf DEBUG (r ++ [msg])).p1_set && (tickOf DEBUG (r ++ [msg])).p2_set) =
      bothFeeds (r ++ [msg]) := by
    rw [tickOf_eq]
    rfl
  have hentry : entryOf DEBUG (r ++ [msg]) = some (tickOf DEBUG (r ++ [msg])) :=
    if_neg (List.append_ne_nil_of_right_ne_nil _ (List.cons_ne_nil _ _))
  unfold entryStep
  rw [entryOf_getD, ← tickOf_concat, hentry]
  simp only [hflags]

/-- While a round is under way, the entry is that of its messages. -/
theorem state_of_open (DEBUG : Bool) {r : List (Message Price)} (h : Rounds.Open bothFeeds r) :
    (keyed DEBUG).entry.state none r = entryOf DEBUG r := by
  induction r using List.reverseRecOn with
  | nil => rfl
  | append_singleton r msg ih =>
    have hr : Rounds.Open bothFeeds r := fun p hp => h p (hp.trans (List.prefix_append _ _))
    have hfull : bothFeeds (r ++ [msg]) = false := h _ (List.prefix_refl _)
    rw [Machine.state_concat, ih hr]
    show (entryStep DEBUG (entryOf DEBUG r) msg).1 = _
    rw [entryStep_entryOf, hfull]
    rfl

/-- The record sent at the end of a full round of a label is the round's. -/
theorem record_tickOf (DEBUG : Bool) (T : ℤ) {r : List (Message Price)} (h : bothFeeds r = true) :
    some ((tickOf DEBUG r).record DEBUG T) = roundRecord DEBUG T r := by
  obtain ⟨b, m, hb, hm⟩ := exists_last h
  rw [tickOf_eq]
  unfold roundRecord Tick.record
  cases DEBUG <;> simp [hb, hm]

/-- The entry of a label over a whole run: it is left at the round under way, and the records sent are
those of the completed rounds. -/
theorem entry_run (DEBUG : Bool) (msgs : List (Message Price)) :
    (keyed DEBUG).entry.state none msgs = entryOf DEBUG (Rounds.cut bothFeeds msgs).2 ∧
      (keyed DEBUG).entry.outputs none msgs =
        (Rounds.cut bothFeeds msgs).1.flatMap (Rounds.roundOutputs none (roundAnswer DEBUG)) ++
          List.replicate (Rounds.cut bothFeeds msgs).2.length none := by
  have hopen := (Rounds.cut_spec bothFeeds rfl msgs).2.2
  rw [← state_of_open DEBUG hopen]
  -- The entry is a machine that works in rounds: silent while a round is under way, and back at no
  -- entry when it is complete.
  refine Rounds.run_cut rfl (keyed DEBUG).entry none none (roundAnswer DEBUG) ?_ ?_ msgs
  · intro cur msg hcur
    have hprev : Rounds.Open bothFeeds cur := fun p hp => hcur p (hp.trans (List.prefix_append _ _))
    rw [state_of_open DEBUG hprev]
    show (entryStep DEBUG (entryOf DEBUG cur) msg).2 = none
    rw [entryStep_entryOf, hcur _ (List.prefix_refl _)]
    rfl
  · rintro cur msg ⟨hfull, hproper⟩
    have hprev : Rounds.Open bothFeeds cur := by
      intro p hp
      refine hproper p (hp.trans (List.prefix_append _ _)) fun he => ?_
      have := hp.length_le
      rw [he, List.length_append, List.length_singleton] at this
      omega
    rw [state_of_open DEBUG hprev]
    show entryStep DEBUG (entryOf DEBUG cur) msg = _
    rw [entryStep_entryOf, hfull, if_pos rfl, record_tickOf DEBUG msg.T hfull]
    simp [roundAnswer]

/-- The first message of a label makes the tick of that message alone. -/
theorem receive_construct (DEBUG : Bool) (msg : Message Price) :
    Tick.construct.receive DEBUG msg = soloTick DEBUG msg := by
  unfold Tick.receive soloTick
  split <;> cases DEBUG <;> rfl

/-- Another message of the feed that has arrived takes the place of the one before. -/
theorem receive_soloTick (DEBUG : Bool) {x msg : Message Price} (h : x.id = 1 ↔ msg.id = 1) :
    (soloTick DEBUG x).receive DEBUG msg = soloTick DEBUG msg := by
  unfold Tick.receive soloTick
  by_cases hmsg : msg.id = 1
  · rw [if_pos hmsg, if_pos (h.2 hmsg), if_pos hmsg]
    cases DEBUG <;> rfl
  · rw [if_neg hmsg, if_neg (mt h.1 hmsg), if_neg hmsg]
    cases DEBUG <;> rfl

/-- A round of one feed alone has built up the tick of its last message. -/
theorem tickOf_of_one_feed (DEBUG : Bool) {r : List (Message Price)} {msg : Message Price}
    (h : ∀ x ∈ r, x.id = 1 ↔ msg.id = 1) : tickOf DEBUG (r ++ [msg]) = soloTick DEBUG msg := by
  rw [tickOf_concat]
  induction r using List.reverseRecOn generalizing msg with
  | nil => exact receive_construct DEBUG msg
  | append_singleton r x ih =>
    have hx : x.id = 1 ↔ msg.id = 1 := h x (List.mem_append_right _ (List.mem_singleton_self x))
    have hr : ∀ y ∈ r, y.id = 1 ↔ x.id = 1 := fun y hy =>
      (h y (List.mem_append_left _ hy)).trans hx.symm
    rw [tickOf_concat, ih hr, receive_soloTick DEBUG hx]

/-- The entry of a round under way is the tick of its last message. -/
theorem entryOf_of_open (DEBUG : Bool) {r : List (Message Price)} (h : Rounds.Open bothFeeds r) :
    entryOf DEBUG r = r.getLast?.map (soloTick DEBUG) := by
  rcases List.eq_nil_or_concat' r with rfl | ⟨r', msg, rfl⟩
  · rfl
  · have hmsg : msg ∈ r' ++ [msg] := List.mem_append_right _ (List.mem_singleton_self msg)
    -- Its messages are of one feed, so the other half is never set.
    have hfeed : ∀ x ∈ r', x.id = 1 ↔ msg.id = 1 := by
      intro x hx
      have hx' := List.mem_append_left [msg] hx
      rcases one_feed_of_open h with hid | hid
      · exact iff_of_true (hid x hx') (hid msg hmsg)
      · exact iff_of_false (hid x hx') (hid msg hmsg)
    rw [entryOf, if_neg (List.append_ne_nil_of_right_ne_nil _ (List.cons_ne_nil _ _)),
      tickOf_of_one_feed DEBUG hfeed, List.getLast?_concat, Option.map_some]

/-- What is sent for the messages of a label is the record of each completed round, at its last
message. -/
theorem answersAt_rounds (DEBUG : Bool) (msgs : List (Message Price)) (T : ℤ) :
    answersAt DEBUG T msgs =
      (rounds T msgs).1.flatMap (Rounds.roundOutputs none (roundRecord DEBUG T)) ++
        List.replicate (rounds T msgs).2.length none := by
  rw [answersAt_eq, (entry_run DEBUG (messagesAt T msgs)).2]
  congr 1
  apply List.flatMap_congr
  intro r hr
  unfold Rounds.roundOutputs
  rw [roundAnswer_eq DEBUG hr]

/-- The entry of a label holds the last message of its round under way. -/
theorem lookup_rounds (DEBUG : Bool) (msgs : List (Message Price)) (T : ℤ) :
    (tickMap DEBUG msgs).lookup T = (rounds T msgs).2.getLast?.map (soloTick DEBUG) := by
  have hopen := (Rounds.cut_spec bothFeeds rfl (messagesAt T msgs)).2.2
  rw [lookup_tickMap, (entry_run DEBUG (messagesAt T msgs)).1, entryOf_of_open DEBUG hopen]
  rfl

/-- The law of the rounds of a label, after a list of messages. -/
structure RoundLaw (DEBUG : Bool) (msgs : List (Message Price)) (T : ℤ) : Prop where
  /-- The rounds cut the messages of the label. -/
  flatten_eq : (rounds T msgs).1.flatten ++ (rounds T msgs).2 = messagesAt T msgs
  /-- Each completed round ends at the first message that makes it full. -/
  closed : ∀ r ∈ (rounds T msgs).1, Rounds.Closed bothFeeds r
  /-- The round under way is not full at any of its messages. -/
  under_way : Rounds.Open bothFeeds (rounds T msgs).2
  /-- For the messages of the label the loop sends nothing but the record of each completed round, at
  its last message. -/
  answers_eq : answersAt DEBUG T msgs =
    (rounds T msgs).1.flatMap (Rounds.roundOutputs none (roundRecord DEBUG T)) ++
      List.replicate (rounds T msgs).2.length none
  /-- Each completed round has its record, from the last message of each feed in the round. -/
  record_eq : ∀ r ∈ (rounds T msgs).1, ∃ b m, (binanceOf r).getLast? = some b ∧
    (bitmexOf r).getLast? = some m ∧ roundRecord DEBUG T r =
      some ⟨T, b.p, m.p, if DEBUG then some ⟨some (T - b.t), some (T - m.t)⟩ else none⟩
  /-- The records of the label are those of its completed rounds, in order. -/
  records_eq : (records DEBUG msgs).filter (fun r => r.T = T) =
    (rounds T msgs).1.filterMap (roundRecord DEBUG T)
  /-- The label has an entry exactly when its round under way is not empty. -/
  mem_iff : T ∈ tickMap DEBUG msgs ↔ (rounds T msgs).2 ≠ []
  /-- The round under way is of one feed. -/
  one_feed : (∀ msg ∈ (rounds T msgs).2, msg.id = 1) ∨ ∀ msg ∈ (rounds T msgs).2, msg.id ≠ 1
  /-- The entry has that feed's flag alone, and holds the last message of the round. -/
  lookup_eq : (tickMap DEBUG msgs).lookup T = (rounds T msgs).2.getLast?.map (soloTick DEBUG)

/-- The law of the rounds holds for every label after every list of messages. -/
theorem round_law (DEBUG : Bool) (msgs : List (Message Price)) (T : ℤ) : RoundLaw DEBUG msgs T := by
  obtain ⟨hflat, hclosed, hopen⟩ := Rounds.cut_spec bothFeeds rfl (messagesAt T msgs)
  have hanswers := answersAt_rounds DEBUG msgs T
  have hlookup := lookup_rounds DEBUG msgs T
  refine ⟨hflat, hclosed, hopen, hanswers, ?_, ?_, ?_, one_feed_of_open hopen, hlookup⟩
  · intro r hr
    obtain ⟨b, m, hb, hm⟩ := exists_last (hclosed r hr).1
    exact ⟨b, m, hb, hm, by simp [roundRecord, hb, hm]⟩
  · rw [records_filter, hanswers, Rounds.reduceOption_roundOutputs]
  · rw [← Finmap.lookup_isSome, hlookup, Option.isSome_map, List.getLast?_isSome]

end Typhoon.Aligner
