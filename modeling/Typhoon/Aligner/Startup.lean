import Typhoon.Aggregator.Schedule
import Typhoon.Aligner.Join

/-!
# Two aggregators and the aligner

Two aggregators with one interval, started at unrelated clock readings, send their ticks to one
aligner. Their labels lie on the grid of the interval, each stream a range of it, so the join of the
two streams is the common part of two ranges and what is left in the map is the rest
(`startup_law`). Once both streams are past the later of the two readings, the rest that lies behind
is what the first aggregator sent before the second was started, and it stays in the map
(`Settled.stays`).
-/

namespace Typhoon.Aligner

open Aggregator

variable {Price : Type*}

/-- The ticks of a binance and a bitmex aggregator are two streams without repeated labels. -/
theorem streams_sendEvery {i : ℤ} (hi : 0 < i) (n₁ n₂ : ℤ) (c₁ c₂ : List (ℤ × Price)) :
    Streams (sendEvery .binance i (Grid.next i n₁) c₁) (sendEvery .bitmex i (Grid.next i n₂) c₂) where
  binance b hb := by rw [id_of_mem_sendEvery hb]; rfl
  bitmex m hm := by rw [id_of_mem_sendEvery hm]; decide
  nodup_binance := nodup_labels hi n₁ _ c₁
  nodup_bitmex := nodup_labels hi n₂ _ c₂

/-- The ticks that an aggregator with the interval `i` has sent for `k` closings: they are labelled `F`,
`F + i`, `F + 2 * i` and so on, and carry the `id` of its build. -/
structure Scheduled (feed : Feed) (i F : ℤ) (k : ℕ) (ticks : List (Message Price)) : Prop where
  /-- One label for each closing, each an interval after the one before. -/
  labels : ticks.map Message.T = Grid.progression i F k
  /-- The `id` of every tick. -/
  ids : ∀ msg ∈ ticks, msg.id = feed.id

/-- `send_every` sends a tick for every closing, on schedule. -/
theorem scheduled_sendEvery (feed : Feed) (i F : ℤ) (closings : List (ℤ × Price)) :
    Scheduled feed i F closings.length (sendEvery feed i F closings) where
  labels := map_T_sendEvery feed i F closings
  ids _ hmsg := id_of_mem_sendEvery hmsg

/-- The labels of a join are those that both streams have. -/
theorem mem_map_innerJoin (DEBUG : Bool) (B M : List (Message Price)) (T : ℤ) :
    T ∈ (innerJoin DEBUG B M).map Record.T ↔ T ∈ B.map Message.T ∧ T ∈ M.map Message.T := by
  simp only [innerJoin, List.mem_map, List.mem_filterMap, Option.map_eq_some_iff]
  constructor
  · rintro ⟨_, ⟨b, hb, m, hfind, rfl⟩, rfl⟩
    have hm := List.find?_some hfind
    exact ⟨⟨b, hb, rfl⟩, m, List.mem_of_find?_eq_some hfind, of_decide_eq_true hm⟩
  · rintro ⟨⟨b, hb, rfl⟩, m, hm, hT⟩
    have hsome : (M.find? fun m => m.T = b.T).isSome :=
      List.find?_isSome.2 ⟨m, hm, decide_eq_true hT⟩
    obtain ⟨m', hfind⟩ := Option.isSome_iff_exists.1 hsome
    exact ⟨joined DEBUG b m', ⟨b, hb, m', hfind, rfl⟩, rfl⟩

/-- The labels of a join are listed in the order of the first stream. -/
theorem map_innerJoin_sublist (DEBUG : Bool) (B M : List (Message Price)) :
    ((innerJoin DEBUG B M).map Record.T).Sublist (B.map Message.T) := by
  unfold innerJoin
  induction B with
  | nil => exact List.Sublist.slnil
  | cons b B ih =>
    cases hfind : M.find? fun m => m.T = b.T with
    | none =>
      rw [List.filterMap_cons_none (by rw [hfind]; rfl)]
      exact ih.cons _
    | some m =>
      rw [List.filterMap_cons_some (by rw [hfind]; rfl)]
      exact ih.cons_cons _

variable [Zero Price]

/-- What the aligner sends and keeps for the ticks of two aggregators, in terms of the labels that
each has sent. -/
structure LinedUp (DEBUG : Bool) (i n₁ n₂ : ℤ) (ticks₁ ticks₂ l : List (Message Price)) : Prop where
  /-- No label has two records. -/
  nodup : ((records DEBUG l).map Record.T).Nodup
  /-- The labels of the records are those that both have sent. -/
  mem_records : ∀ T, T ∈ (records DEBUG l).map Record.T ↔
    T ∈ ticks₁.map Message.T ∧ T ∈ ticks₂.map Message.T
  /-- They are multiples of the interval past both clock readings. -/
  multiple : ∀ T ∈ (records DEBUG l).map Record.T, i ∣ T ∧ max n₁ n₂ < T
  /-- The keys of the map are the labels that one alone has sent. -/
  mem_tickMap : ∀ T, T ∈ tickMap DEBUG l ↔
    (T ∈ ticks₁.map Message.T ∧ T ∉ ticks₂.map Message.T) ∨
      (T ∉ ticks₁.map Message.T ∧ T ∈ ticks₂.map Message.T)

/-- What the aligner has sent and keeps up to a label `H` that both aggregators have sent. -/
structure Settled (DEBUG : Bool) (i n₁ n₂ : ℤ) (ticks₁ ticks₂ l : List (Message Price)) (H : ℤ) :
    Prop where
  /-- Every multiple past both clock readings has its record. -/
  mem_records : ∀ T, i ∣ T → max n₁ n₂ < T → T ≤ H → T ∈ (records DEBUG l).map Record.T
  /-- The keys left are the multiples between the two clock readings. -/
  mem_tickMap : ∀ T ≤ H, T ∈ tickMap DEBUG l ↔ i ∣ T ∧ min n₁ n₂ < T ∧ T ≤ max n₁ n₂
  /-- Their number is the distance of the two starts on the grid. -/
  card_keys : (((tickMap DEBUG l).keys.filter (· ≤ H)).card : ℤ) = |n₁ / i - n₂ / i|
  /-- They are labels of the aggregator that was started first. -/
  first : ∀ T ≤ H, T ∈ tickMap DEBUG l →
    (n₁ < n₂ ∧ T ∈ ticks₁.map Message.T) ∨ (n₂ < n₁ ∧ T ∈ ticks₂.map Message.T)
  /-- Messages with later labels leave all of them as they are. -/
  stays : ∀ later : List (Message Price), (∀ msg ∈ later, H < msg.T) →
    ∀ T ≤ H, (tickMap DEBUG (l ++ later)).lookup T = (tickMap DEBUG l).lookup T

/-- Messages with labels past `H` leave the entries up to `H` as they are. -/
theorem lookup_later (DEBUG : Bool) (l : List (Message Price)) {later : List (Message Price)} {H : ℤ}
    (hlater : ∀ msg ∈ later, H < msg.T) {T : ℤ} (hT : T ≤ H) :
    (tickMap DEBUG (l ++ later)).lookup T = (tickMap DEBUG l).lookup T := by
  have hnone : messagesAt T later = [] := by
    rw [messagesAt_eq_nil_iff, List.mem_map]
    rintro ⟨msg, hmsg, rfl⟩
    have := hlater msg hmsg
    omega
  have hsame : messagesAt T (l ++ later) = messagesAt T l := by
    calc messagesAt T (l ++ later) = messagesAt T l ++ messagesAt T later := List.filter_append _ _
      _ = messagesAt T l := by rw [hnone, List.append_nil]
  rw [lookup_tickMap, lookup_tickMap, hsame]

section Labels

variable {i n₁ n₂ : ℤ} (hi : 0 < i) {c₁ c₂ : List (ℤ × Price)} {l : List (Message Price)}
  (hl : Interleave (sendEvery .binance i (Grid.next i n₁) c₁)
    (sendEvery .bitmex i (Grid.next i n₂) c₂) l) (DEBUG : Bool)
include hi hl

/-- The records of two aggregators have the labels that both have sent. -/
theorem mem_records_labels (T : ℤ) :
    T ∈ (records DEBUG l).map Record.T ↔
      T ∈ (sendEvery .binance i (Grid.next i n₁) c₁).map Message.T ∧
        T ∈ (sendEvery .bitmex i (Grid.next i n₂) c₂).map Message.T := by
  have hperm := records_perm (streams_sendEvery hi n₁ n₂ c₁ c₂) hl DEBUG
  rw [(hperm.map Record.T).mem_iff, mem_map_innerJoin]

/-- The ticks of two aggregators line up. -/
theorem linedUp : LinedUp DEBUG i n₁ n₂ (sendEvery .binance i (Grid.next i n₁) c₁)
    (sendEvery .bitmex i (Grid.next i n₂) c₂) l := by
  have hs := streams_sendEvery hi n₁ n₂ c₁ c₂
  refine ⟨?_, mem_records_labels hi hl DEBUG, ?_, mem_join hs hl DEBUG⟩
  · rw [((records_perm hs hl DEBUG).map Record.T).nodup_iff]
    exact hs.nodup_binance.sublist (map_innerJoin_sublist DEBUG _ _)
  · intro T hT
    obtain ⟨h₁, h₂⟩ := (mem_records_labels hi hl DEBUG T).1 hT
    obtain ⟨hd, hn₁, -⟩ := (mem_labels hi n₁ _ c₁ T).1 h₁
    obtain ⟨-, hn₂, -⟩ := (mem_labels hi n₂ _ c₂ T).1 h₂
    exact ⟨hd, by omega⟩

/-- Up to a label that both have sent, the keys left are the multiples of the interval between the two
clock readings, and only the first aggregator has sent them. -/
theorem mem_tickMap_le {H : ℤ}
    (h₁ : H ∈ (sendEvery .binance i (Grid.next i n₁) c₁).map Message.T)
    (h₂ : H ∈ (sendEvery .bitmex i (Grid.next i n₂) c₂).map Message.T) {T : ℤ} (hT : T ≤ H) :
    T ∈ tickMap DEBUG l ↔ i ∣ T ∧ min n₁ n₂ < T ∧ T ≤ max n₁ n₂ := by
  rw [mem_join (streams_sendEvery hi n₁ n₂ c₁ c₂) hl DEBUG]
  rw [mem_labels hi] at h₁ h₂ ⊢
  rw [mem_labels hi]
  -- On the grid, both streams have sent everything up to `H` that is past their own start.
  by_cases hd : i ∣ T
  · simp only [hd, true_and]
    omega
  · simp [hd]

/-- The keys left up to a label that both have sent are as many as the multiples between the two clock
readings. -/
theorem card_keys_le {H : ℤ} (h₁ : H ∈ (sendEvery .binance i (Grid.next i n₁) c₁).map Message.T)
    (h₂ : H ∈ (sendEvery .bitmex i (Grid.next i n₂) c₂).map Message.T) :
    (((tickMap DEBUG l).keys.filter (· ≤ H)).card : ℤ) = |n₁ / i - n₂ / i| := by
  obtain ⟨-, hn₁, -⟩ := (mem_labels hi n₁ _ c₁ H).1 h₁
  obtain ⟨-, hn₂, -⟩ := (mem_labels hi n₂ _ c₂ H).1 h₂
  have hkeys : (tickMap DEBUG l).keys.filter (· ≤ H) =
      (Finset.Ioc (min n₁ n₂) (max n₁ n₂)).filter (i ∣ ·) := by
    ext T
    rw [Finset.mem_filter, Finset.mem_filter, Finset.mem_Ioc, Finmap.mem_keys]
    constructor
    · rintro ⟨hmem, hT⟩
      obtain ⟨hd, hmin, hmax⟩ := (mem_tickMap_le hi hl DEBUG h₁ h₂ hT).1 hmem
      exact ⟨⟨hmin, hmax⟩, hd⟩
    · rintro ⟨⟨hmin, hmax⟩, hd⟩
      have hT : T ≤ H := by omega
      exact ⟨(mem_tickMap_le hi hl DEBUG h₁ h₂ hT).2 ⟨hd, hmin, hmax⟩, hT⟩
  rw [hkeys, Grid.card_multiples_between hi]

/-- What two aggregators have left behind when both have sent `H`. -/
theorem settled {H : ℤ} (h₁ : H ∈ (sendEvery .binance i (Grid.next i n₁) c₁).map Message.T)
    (h₂ : H ∈ (sendEvery .bitmex i (Grid.next i n₂) c₂).map Message.T) :
    Settled DEBUG i n₁ n₂ (sendEvery .binance i (Grid.next i n₁) c₁)
      (sendEvery .bitmex i (Grid.next i n₂) c₂) l H := by
  obtain ⟨-, hn₁, hend₁⟩ := (mem_labels hi n₁ _ c₁ H).1 h₁
  obtain ⟨-, hn₂, hend₂⟩ := (mem_labels hi n₂ _ c₂ H).1 h₂
  have hkeys := fun T (hT : T ≤ H) => mem_tickMap_le hi hl DEBUG h₁ h₂ hT
  refine ⟨?_, hkeys, card_keys_le hi hl DEBUG h₁ h₂, ?_, fun later hlater T hT =>
    lookup_later DEBUG l hlater hT⟩
  · intro T hd hmax hT
    rw [mem_records_labels hi hl DEBUG, mem_labels hi, mem_labels hi]
    exact ⟨⟨hd, by omega, by omega⟩, hd, by omega, by omega⟩
  · intro T hT hmem
    obtain ⟨hd, hmin, hmax⟩ := (hkeys T hT).1 hmem
    rw [mem_labels hi, mem_labels hi]
    rcases lt_or_ge n₁ n₂ with h | h
    · exact .inl ⟨h, hd, by omega, by omega⟩
    · exact .inr ⟨by omega, hd, by omega, by omega⟩

end Labels

/-- Two aggregators with one interval line up whatever their clock readings and the order of arrival.
Each sends its ticks on schedule, one for each closing. The aligner has sent one record for each label
that both have sent, and keeps the labels that one alone has sent. Once both have sent `H`, which is
then a multiple of the interval past both readings, it has sent a record for every multiple up to `H`
past both readings, and what it keeps up to `H`, now and for good, are the `|n₁ / i - n₂ / i|`
multiples between the two readings. -/
theorem startup_law (DEBUG : Bool) {i n₁ n₂ F₁ F₂ : ℤ} (hi : 0 < i) (hn₁ : 0 ≤ n₁) (hn₂ : 0 ≤ n₂)
    (hF₁ : getClosestTp n₁ i = some F₁) (hF₂ : getClosestTp n₂ i = some F₂)
    (c₁ c₂ : List (ℤ × Price)) {l : List (Message Price)}
    (hl : Interleave (sendEvery .binance i F₁ c₁) (sendEvery .bitmex i F₂ c₂) l) :
    Scheduled .binance i F₁ c₁.length (sendEvery .binance i F₁ c₁) ∧
      Scheduled .bitmex i F₂ c₂.length (sendEvery .bitmex i F₂ c₂) ∧
      LinedUp DEBUG i n₁ n₂ (sendEvery .binance i F₁ c₁) (sendEvery .bitmex i F₂ c₂) l ∧
      ∀ H ∈ (sendEvery .binance i F₁ c₁).map Message.T,
        H ∈ (sendEvery .bitmex i F₂ c₂).map Message.T →
        Settled DEBUG i n₁ n₂ (sendEvery .binance i F₁ c₁) (sendEvery .bitmex i F₂ c₂) l H ∧
        ∀ c₁' c₂' later, Interleave (sendEvery .binance i F₁ (c₁ ++ c₁'))
          (sendEvery .bitmex i F₂ (c₂ ++ c₂')) (l ++ later) →
            ∀ T ≤ H, (tickMap DEBUG (l ++ later)).lookup T = (tickMap DEBUG l).lookup T := by
  obtain rfl : Grid.next i n₁ = F₁ := Option.some.inj ((getClosestTp_eq hi hn₁).symm.trans hF₁)
  obtain rfl : Grid.next i n₂ = F₂ := Option.some.inj ((getClosestTp_eq hi hn₂).symm.trans hF₂)
  refine ⟨scheduled_sendEvery .binance i _ c₁, scheduled_sendEvery .bitmex i _ c₂, linedUp hi hl DEBUG,
    fun H h₁ h₂ => ?_⟩
  have hsettled := settled hi hl DEBUG h₁ h₂
  refine ⟨hsettled, fun c₁' c₂' later hl' => hsettled.stays later fun msg hmsg => ?_⟩
  -- What arrives later was sent later, with a label past `H`.
  obtain ⟨-, -, hend₁⟩ := (mem_labels hi n₁ _ c₁ H).1 h₁
  obtain ⟨-, -, hend₂⟩ := (mem_labels hi n₂ _ c₂ H).1 h₂
  rw [sendEvery_append, sendEvery_append] at hl'
  rcases hl.mem_later hl' hmsg with h | h
  · exact lt_of_lt_of_le hend₁ (label_of_mem_later hi n₁ _ c₁ h)
  · exact lt_of_lt_of_le hend₂ (label_of_mem_later hi n₂ _ c₂ h)

/-- A binance aggregator started at 0 and a bitmex aggregator started at 1500, whose first tick
arrives before the second one of the other. -/
theorem startup_law_thousand :
    getClosestTp 0 1000 = some 1000 ∧ getClosestTp 1500 1000 = some 2000 ∧
      Interleave (sendEvery .binance 1000 1000 [(3, 5), (4, 6)])
        (sendEvery .bitmex 1000 2000 [(7, 9)])
        [⟨1000, 1, (5 : ℤ), 3⟩, ⟨2000, 2, 9, 7⟩, ⟨2000, 1, 6, 4⟩] ∧
      Scheduled .binance 1000 1000 2 (sendEvery .binance 1000 1000 [(3, (5 : ℤ)), (4, 6)]) ∧
      Scheduled .bitmex 1000 2000 1 (sendEvery .bitmex 1000 2000 [(7, (9 : ℤ))]) ∧
      LinedUp true 1000 0 1500 (sendEvery .binance 1000 1000 [(3, 5), (4, 6)])
        (sendEvery .bitmex 1000 2000 [(7, 9)])
        [⟨1000, 1, (5 : ℤ), 3⟩, ⟨2000, 2, 9, 7⟩, ⟨2000, 1, 6, 4⟩] ∧
      Settled true 1000 0 1500 (sendEvery .binance 1000 1000 [(3, 5), (4, 6)])
        (sendEvery .bitmex 1000 2000 [(7, 9)])
        [⟨1000, 1, (5 : ℤ), 3⟩, ⟨2000, 2, 9, 7⟩, ⟨2000, 1, 6, 4⟩] 2000 := by
  have hl : Interleave (sendEvery .binance 1000 1000 [(3, 5), (4, 6)])
      (sendEvery .bitmex 1000 2000 [(7, 9)])
      [⟨1000, 1, (5 : ℤ), 3⟩, ⟨2000, 2, 9, 7⟩, ⟨2000, 1, 6, 4⟩] := .left (.right (.left .nil))
  obtain ⟨h₁, h₂, hlined, hsettled⟩ := startup_law true (by decide) (le_refl 0)
    (show (0 : ℤ) ≤ 1500 by decide) (by decide) (by decide) [(3, 5), (4, 6)] [(7, 9)] hl
  exact ⟨by decide, by decide, hl, h₁, h₂, hlined, (hsettled 2000 (by decide) (by decide)).1⟩

end Typhoon.Aligner
