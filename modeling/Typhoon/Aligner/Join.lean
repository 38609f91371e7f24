import Mathlib.Algebra.Ring.Int.Defs
import Typhoon.Library.Interleave
import Typhoon.Aligner.Rounds

/-!
# The aligner joins two streams

When neither feed repeats a label, the aligner computes the inner join of the two streams by label,
whatever the order of arrival. `records_perm` is the join, and `lookup_join` says what is left in the
map: the ticks of the labels that one stream alone has.

A label has at most one message of each stream. So its messages arrive in one of a few ways
(`Interleave.filter_key`), and on each of them the one-entry machine is evaluated.
-/

namespace Typhoon.Aligner

variable {Price : Type*}

/-- The record of two messages with one label. -/
def joined (DEBUG : Bool) (b m : Message Price) : Record Price :=
  ⟨b.T, b.p, m.p, if DEBUG then some ⟨some (b.T - b.t), some (b.T - m.t)⟩ else none⟩

/-- The inner join of two streams by label: a record for each message of the first whose label the
second has. -/
def innerJoin (DEBUG : Bool) (B M : List (Message Price)) : List (Record Price) :=
  B.filterMap fun b => (M.find? fun m => m.T = b.T).map (joined DEBUG b)

/-- The records of a label in the join are those of its messages. -/
theorem innerJoin_filter (DEBUG : Bool) (B M : List (Message Price)) (T : ℤ) :
    (innerJoin DEBUG B M).filter (fun r => r.T = T) =
      (messagesAt T B).filterMap fun b => (messagesAt T M).head?.map (joined DEBUG b) := by
  unfold innerJoin messagesAt
  rw [List.filter_filterMap, List.filterMap_filter]
  apply List.filterMap_congr
  intro b _
  by_cases hb : b.T = T
  · rw [List.head?_filter, hb]
    cases (M.find? fun m => m.T = T) <;> simp [joined, hb]
  · cases (M.find? fun m => m.T = b.T) <;> simp [joined, hb]

/-- Two streams, one of each feed, neither of which repeats a label. -/
structure Streams (B M : List (Message Price)) : Prop where
  binance : ∀ b ∈ B, b.id = 1
  bitmex : ∀ m ∈ M, m.id ≠ 1
  nodup_binance : (B.map Message.T).Nodup
  nodup_bitmex : (M.map Message.T).Nodup

/-- A label has messages exactly when it is one of the labels. -/
theorem messagesAt_eq_nil_iff (T : ℤ) (msgs : List (Message Price)) :
    messagesAt T msgs = [] ↔ T ∉ msgs.map Message.T := by
  unfold messagesAt
  rw [List.filter_eq_nil_iff, List.mem_map]
  simp only [decide_eq_true_eq, not_exists, not_and]

/-- A message of a stream is the only one of its label there. -/
theorem messagesAt_of_mem {msgs : List (Message Price)} {msg : Message Price}
    (h : (msgs.map Message.T).Nodup) (hmsg : msg ∈ msgs) : messagesAt msg.T msgs = [msg] := by
  have hmem : msg ∈ messagesAt msg.T msgs := List.mem_filter.2 ⟨hmsg, by simp⟩
  rcases filter_key_of_nodup h msg.T with h' | ⟨x, h'⟩
  · unfold messagesAt at hmem
    rw [h'] at hmem
    exact absurd hmem List.not_mem_nil
  · unfold messagesAt at hmem ⊢
    rw [h'] at hmem ⊢
    rw [List.mem_singleton.1 hmem]

/-- A label of two streams has no message, one of either feed, or one of each. -/
theorem messagesAt_cases {B M l : List (Message Price)} (hs : Streams B M)
    (hl : Interleave B M l) (T : ℤ) :
    (messagesAt T B = [] ∧ messagesAt T M = [] ∧ messagesAt T l = []) ∨
    (∃ b, b.id = 1 ∧ b.T = T ∧
      messagesAt T B = [b] ∧ messagesAt T M = [] ∧ messagesAt T l = [b]) ∨
    (∃ m, m.id ≠ 1 ∧ m.T = T ∧
      messagesAt T B = [] ∧ messagesAt T M = [m] ∧ messagesAt T l = [m]) ∨
    ∃ b m, b.id = 1 ∧ b.T = T ∧ m.id ≠ 1 ∧ m.T = T ∧ messagesAt T B = [b] ∧
      messagesAt T M = [m] ∧ (messagesAt T l = [b, m] ∨ messagesAt T l = [m, b]) := by
  have hB : ∀ b, messagesAt T B = [b] → b.id = 1 ∧ b.T = T := by
    intro b h
    have hmem : b ∈ messagesAt T B := by rw [h]; exact List.mem_singleton_self b
    obtain ⟨hb, hT⟩ := List.mem_filter.1 hmem
    exact ⟨hs.binance b hb, of_decide_eq_true hT⟩
  have hM : ∀ m, messagesAt T M = [m] → m.id ≠ 1 ∧ m.T = T := by
    intro m h
    have hmem : m ∈ messagesAt T M := by rw [h]; exact List.mem_singleton_self m
    obtain ⟨hm, hT⟩ := List.mem_filter.1 hmem
    exact ⟨hs.bitmex m hm, of_decide_eq_true hT⟩
  rcases hl.filter_key hs.nodup_binance hs.nodup_bitmex T with
    ⟨h1, h2, h3⟩ | ⟨b, h1, h2, h3⟩ | ⟨m, h1, h2, h3⟩ | ⟨b, m, h1, h2, h3⟩
  · exact .inl ⟨h1, h2, h3⟩
  · exact .inr (.inl ⟨b, (hB b h1).1, (hB b h1).2, h1, h2, h3⟩)
  · exact .inr (.inr (.inl ⟨m, (hM m h2).1, (hM m h2).2, h1, h2, h3⟩))
  · exact .inr (.inr (.inr ⟨b, m, (hB b h1).1, (hB b h1).2, (hM m h2).1, (hM m h2).2, h1, h2, h3⟩))

/-- Before an element of a list of at most two stands nothing, or the first one. -/
theorem front_cases {α : Type*} {as cs : List α} {a x y : α} (h : as ++ a :: cs = [x, y]) :
    as = [] ∨ as = [x] ∧ a = y := by
  rcases List.append_eq_cons_iff.1 h with ⟨rfl, -⟩ | ⟨as', rfl, h'⟩
  · exact .inl rfl
  · rcases List.append_eq_cons_iff.1 h'.symm with ⟨rfl, h''⟩ | ⟨as'', -, h''⟩
    · exact .inr ⟨rfl, (List.cons.inj h'').1⟩
    · exact absurd h''.symm (List.append_ne_nil_of_right_ne_nil _ (List.cons_ne_nil _ _))

/-- Before a message of a label arrives, the other stream's message of the label may have arrived, and
no other. -/
theorem earlier_cases {B M l pre post : List (Message Price)} {msg : Message Price}
    (hs : Streams B M) (hl : Interleave B M l) (hlist : l = pre ++ msg :: post) :
    messagesAt msg.T pre = [] ∨
      ∃ x, messagesAt msg.T pre = [x] ∧ x.T = msg.T ∧ (x.id = 1 ↔ msg.id ≠ 1) := by
  have hsplit : messagesAt msg.T pre ++ msg :: messagesAt msg.T post = messagesAt msg.T l := by
    rw [hlist]
    simp [messagesAt]
  have hone : ∀ x, messagesAt msg.T l = [x] → messagesAt msg.T pre = [] := by
    intro x h
    rw [h, List.append_eq_singleton_iff] at hsplit
    rcases hsplit with ⟨hpre, -⟩ | ⟨-, hnil⟩
    · exact hpre
    · exact absurd hnil (List.cons_ne_nil _ _)
  -- With two messages of the label, `msg` may be the second one.
  rcases messagesAt_cases hs hl msg.T with ⟨-, -, h⟩ | ⟨b, -, -, -, -, h⟩ | ⟨m, -, -, -, -, h⟩ |
    ⟨b, m, hb, hbT, hm, hmT, -, -, h | h⟩
  · rw [h] at hsplit
    exact absurd hsplit (List.append_ne_nil_of_right_ne_nil _ (List.cons_ne_nil _ _))
  · exact .inl (hone b h)
  · exact .inl (hone m h)
  · rcases front_cases (hsplit.trans h) with hpre | ⟨hpre, rfl⟩
    · exact .inl hpre
    · exact .inr ⟨b, hpre, hbT, by simp [hb, hm]⟩
  · rcases front_cases (hsplit.trans h) with hpre | ⟨hpre, rfl⟩
    · exact .inl hpre
    · exact .inr ⟨m, hpre, hmT, by simp [hb, hm]⟩

variable [Zero Price]

/-- The first message of a label makes its entry, and nothing is sent. -/
theorem entryStep_none (DEBUG : Bool) (msg : Message Price) :
    entryStep DEBUG none msg = (some (soloTick DEBUG msg), none) := by
  unfold entryStep soloTick
  by_cases hid : msg.id = 1 <;> cases DEBUG <;> simp [Tick.receive, Tick.construct, hid]

/-- The second message of a label, from the other feed, completes the record. -/
theorem entryStep_binance (DEBUG : Bool) {b m : Message Price} (hb : b.id = 1) (hm : m.id ≠ 1) :
    entryStep DEBUG (some (soloTick DEBUG m)) b = (none, some (joined DEBUG b m)) := by
  unfold entryStep soloTick joined
  cases DEBUG <;> simp [Tick.receive, Tick.record, hb, hm]

/-- The second message of a label completes the record when it is the bitmex one, too. -/
theorem entryStep_bitmex (DEBUG : Bool) {b m : Message Price} (hb : b.id = 1) (hm : m.id ≠ 1)
    (hT : b.T = m.T) :
    entryStep DEBUG (some (soloTick DEBUG b)) m = (none, some (joined DEBUG b m)) := by
  unfold entryStep soloTick joined
  cases DEBUG <;> simp [Tick.receive, Tick.record, hb, hm, hT]

/-- The tick of a label that only one of two streams has. -/
def soloEntry (DEBUG : Bool) (B M : List (Message Price)) (T : ℤ) : Option (Tick Price) :=
  match (messagesAt T B).head?, (messagesAt T M).head? with
  | some b, none => some (soloTick DEBUG b)
  | none, some m => some (soloTick DEBUG m)
  | _, _ => none

section Streams

variable {B M l : List (Message Price)} (hs : Streams B M) (hl : Interleave B M l) (DEBUG : Bool)
include hs hl

/-- What the messages of a label send, and the entry they leave. -/
theorem entry_join (T : ℤ) :
    ((keyed DEBUG).entry.outputs none (messagesAt T l)).reduceOption =
      ((messagesAt T B).filterMap fun b => (messagesAt T M).head?.map (joined DEBUG b)) ∧
    (keyed DEBUG).entry.state none (messagesAt T l) = soloEntry DEBUG B M T := by
  have hstep : ∀ (e : Option (Tick Price)) msg,
      (keyed DEBUG).entry.step e msg = entryStep DEBUG e msg := fun _ _ => rfl
  unfold soloEntry
  -- No message, one message of either stream, or one of each in either order.
  rcases messagesAt_cases hs hl T with ⟨hB, hM, h⟩ | ⟨b, -, -, hB, hM, h⟩ | ⟨m, -, -, hB, hM, h⟩ |
    ⟨b, m, hb, hbT, hm, hmT, hB, hM, h | h⟩
  · rw [hB, hM, h]
    exact ⟨rfl, rfl⟩
  · simp [hB, hM, h, hstep, entryStep_none]
  · simp [hB, hM, h, hstep, entryStep_none]
  · simp [hB, hM, h, hstep, entryStep_none, entryStep_bitmex DEBUG hb hm (hbT.trans hmT.symm)]
  · simp [hB, hM, h, hstep, entryStep_none, entryStep_binance DEBUG hb hm]

/-- The records sent are the inner join of the two streams. -/
theorem records_perm : (records DEBUG l).Perm (innerJoin DEBUG B M) := by
  apply perm_of_filter_key Record.T
  intro T
  rw [records_filter, answersAt_eq, innerJoin_filter, (entry_join hs hl DEBUG T).1]

/-- The map is left with the ticks of the labels that one stream alone has. -/
theorem lookup_join (T : ℤ) : (tickMap DEBUG l).lookup T = soloEntry DEBUG B M T := by
  rw [lookup_tickMap, (entry_join hs hl DEBUG T).2]

/-- The labels left in the map are those of one stream alone. -/
theorem mem_join (T : ℤ) : T ∈ tickMap DEBUG l ↔
    (T ∈ B.map Message.T ∧ T ∉ M.map Message.T) ∨
      (T ∉ B.map Message.T ∧ T ∈ M.map Message.T) := by
  rw [← Finmap.lookup_isSome, lookup_join hs hl DEBUG T]
  unfold soloEntry
  have hB := messagesAt_eq_nil_iff T B
  have hM := messagesAt_eq_nil_iff T M
  cases hb : messagesAt T B <;> cases hm : messagesAt T M <;> simp_all

end Streams

/-- What is sent when a message arrives after others depends on those of its label. -/
theorem answer_eq (DEBUG : Bool) (pre : List (Message Price)) (msg : Message Price) :
    (alignStep DEBUG (tickMap DEBUG pre) msg).2 =
      (entryStep DEBUG ((keyed DEBUG).entry.state none (messagesAt msg.T pre)) msg).2 := by
  rw [alignStep_eq, ← lookup_tickMap]
  rfl

/-- A message completes a record exactly when the other stream's message of its label has arrived
before it. -/
theorem answer_join {B M l pre post : List (Message Price)} {msg : Message Price}
    (hs : Streams B M) (hl : Interleave B M l) (DEBUG : Bool) (hlist : l = pre ++ msg :: post) :
    (alignStep DEBUG (tickMap DEBUG pre) msg).2 = (pre.find? fun x => x.T = msg.T).map fun x =>
      if msg.id = 1 then joined DEBUG msg x else joined DEBUG x msg := by
  have hfirst : ∀ x : Message Price,
      (keyed DEBUG).entry.state none [x] = some (soloTick DEBUG x) := by
    intro x
    show (entryStep DEBUG none x).1 = _
    rw [entryStep_none]
  rw [answer_eq, ← List.head?_filter]
  show _ = (messagesAt msg.T pre).head?.map _
  rcases earlier_cases hs hl hlist with h | ⟨x, h, hT, hid⟩
  -- The first message of its label.
  · rw [h]
    simp [entryStep_none]
  · rw [h, hfirst]
    by_cases hmsg : msg.id = 1
    · have hx : x.id ≠ 1 := fun hx => hid.1 hx hmsg
      simp [entryStep_binance DEBUG hmsg hx, hmsg]
    · have hx : x.id = 1 := hid.2 hmsg
      simp [entryStep_bitmex DEBUG hx hmsg hT, hmsg]

/-- The law of the join, for an order of arrival `l` of the streams `B` and `M`. -/
structure JoinLaw (DEBUG : Bool) (B M l : List (Message Price)) : Prop where
  /-- The records sent are those of the inner join, each once. -/
  records_eq : (records DEBUG l : Multiset (Record Price)) = innerJoin DEBUG B M
  /-- A message of the first feed completes a record exactly when the other message of its label has
  arrived before it. -/
  binance_answer : ∀ pre b post, l = pre ++ b :: post → b.id = 1 →
    (alignStep DEBUG (tickMap DEBUG pre) b).2 =
      (pre.find? fun m => m.T = b.T).map fun m => joined DEBUG b m
  /-- A message of the second feed completes a record exactly when the other message of its label has
  arrived before it. -/
  bitmex_answer : ∀ pre m post, l = pre ++ m :: post → m.id ≠ 1 →
    (alignStep DEBUG (tickMap DEBUG pre) m).2 =
      (pre.find? fun b => b.T = m.T).map fun b => joined DEBUG b m
  /-- The keys left in the map are the labels that one stream alone has. -/
  mem_iff : ∀ T, T ∈ tickMap DEBUG l ↔
    (T ∈ B.map Message.T ∧ T ∉ M.map Message.T) ∨ (T ∉ B.map Message.T ∧ T ∈ M.map Message.T)
  /-- The entry of a label of the first stream alone. -/
  binance_entry : ∀ b ∈ B, b.T ∉ M.map Message.T → (tickMap DEBUG l).lookup b.T =
    some ⟨b.p, 0, true, false, if DEBUG then some b.t else none, none⟩
  /-- The entry of a label of the second stream alone. -/
  bitmex_entry : ∀ m ∈ M, m.T ∉ B.map Message.T → (tickMap DEBUG l).lookup m.T =
    some ⟨0, m.p, false, true, none, if DEBUG then some m.t else none⟩

/-- Every order of arrival of two streams, one of each feed and neither with a repeated label, gives
their inner join, and any two orders give the same records and leave the same map. -/
theorem aligner_inner_join (DEBUG : Bool) {B M : List (Message Price)}
    (hB : ∀ b ∈ B, b.id = 1) (hM : ∀ m ∈ M, m.id ≠ 1) (hBT : (B.map Message.T).Nodup)
    (hMT : (M.map Message.T).Nodup) :
    (∀ l, Interleave B M l → JoinLaw DEBUG B M l) ∧
      ∀ l l', Interleave B M l → Interleave B M l' →
        (records DEBUG l : Multiset (Record Price)) = records DEBUG l' ∧
          tickMap DEBUG l = tickMap DEBUG l' := by
  have hs : Streams B M := ⟨hB, hM, hBT, hMT⟩
  constructor
  · intro l hl
    refine ⟨Multiset.coe_eq_coe.2 (records_perm hs hl DEBUG), ?_, ?_, mem_join hs hl DEBUG, ?_, ?_⟩
    · intro pre b post hlist hb
      rw [answer_join hs hl DEBUG hlist]
      simp only [hb, if_true]
    · intro pre m post hlist hm
      rw [answer_join hs hl DEBUG hlist]
      simp only [hm, if_false]
    · intro b hb hT
      rw [lookup_join hs hl DEBUG, soloEntry, messagesAt_of_mem hBT hb,
        (messagesAt_eq_nil_iff b.T M).2 hT]
      simp [soloTick, hB b hb]
    · intro m hm hT
      rw [lookup_join hs hl DEBUG, soloEntry, messagesAt_of_mem hMT hm,
        (messagesAt_eq_nil_iff m.T B).2 hT]
      simp [soloTick, hM m hm]
  · intro l l' hl hl'
    refine ⟨Multiset.coe_eq_coe.2 ((records_perm hs hl DEBUG).trans
      (records_perm hs hl' DEBUG).symm), Finmap.ext_lookup fun T => ?_⟩
    rw [lookup_join hs hl DEBUG, lookup_join hs hl' DEBUG]

/-- Two streams with one label in common. -/
theorem aligner_inner_join_two :
    (∀ b ∈ ([⟨1000, 1, 5, 3⟩, ⟨2000, 1, 6, 4⟩] : List (Message ℤ)), b.id = 1) ∧
      (∀ m ∈ ([⟨2000, 2, 9, 7⟩] : List (Message ℤ)), m.id ≠ 1) ∧
      Interleave ([⟨1000, 1, 5, 3⟩, ⟨2000, 1, 6, 4⟩] : List (Message ℤ)) [⟨2000, 2, 9, 7⟩]
        [⟨2000, 2, 9, 7⟩, ⟨1000, 1, 5, 3⟩, ⟨2000, 1, 6, 4⟩] ∧
      JoinLaw false ([⟨1000, 1, 5, 3⟩, ⟨2000, 1, 6, 4⟩] : List (Message ℤ)) [⟨2000, 2, 9, 7⟩]
        [⟨2000, 2, 9, 7⟩, ⟨1000, 1, 5, 3⟩, ⟨2000, 1, 6, 4⟩] := by
  have hl : Interleave ([⟨1000, 1, 5, 3⟩, ⟨2000, 1, 6, 4⟩] : List (Message ℤ)) [⟨2000, 2, 9, 7⟩]
      [⟨2000, 2, 9, 7⟩, ⟨1000, 1, 5, 3⟩, ⟨2000, 1, 6, 4⟩] := .right (.left (.left .nil))
  have hlaw := aligner_inner_join false (B := [⟨1000, 1, 5, 3⟩, ⟨2000, 1, (6 : ℤ), 4⟩])
    (M := [⟨2000, 2, 9, 7⟩]) (by decide) (by decide) (by decide) (by decide)
  exact ⟨by decide, by decide, hl, hlaw.1 _ hl⟩

end Typhoon.Aligner
