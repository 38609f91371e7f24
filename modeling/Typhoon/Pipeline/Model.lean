import Typhoon.Aggregator.Process
import Typhoon.Aligner.Join
import Typhoon.Library.Fanin

/-!
# The pipeline

The two aggregators of `src/provider/aggregator.cpp` and the aligner of `src/provider/aligner.cpp` as
one system. Each aggregator runs as in `Aggregator/Process.lean`, with a clock and an interval of its
own, and sends its ticks to the aligner over a socket that keeps their order. The steps of the three
programs come in any order, and a tick may be on its way for any time.

This module defines the system, as two senders and a receiver of `Library/Fanin.lean`, and says what a
stream of ticks of one aggregator is (`Stream`). What its runs keep is in `Law.lean`.
-/

namespace Typhoon.Pipeline

open Aggregator Aligner

variable {Price : Type*}

/-- The message of a tick sent. Where `exec` read past the end of the vector, the label decides what it
read. -/
def wire (feed : Feed) (garbage : ℤ → ℤ × Price) (x : Sent Price) : Message Price :=
  tickMessage feed x.T (x.closing.getD (garbage x.T))

/-- The messages of ticks that are labelled by a progression are those of `send_every`. -/
theorem map_wire_eq_sendEvery (feed : Feed) (garbage : ℤ → ℤ × Price) {interval F : ℤ}
    {sent : List (Sent Price)}
    (hT : sent.map Sent.T = Grid.progression interval F sent.length) :
    sent.map (wire feed garbage) =
      sendEvery feed interval F (sent.map fun x => x.closing.getD (garbage x.T)) := by
  induction sent generalizing F with
  | nil => rfl
  | cons x sent ih =>
    obtain ⟨hF, hrest⟩ := List.cons.inj hT
    rw [List.map_cons, List.map_cons, sendEvery, ih hrest, wire, hF]

/-- An aggregator never takes back what it has sent. -/
theorem sent_isPrefix {interval : ℤ} {s s' : Process Price} {e : Event Price}
    (hstep : (Process.machine interval).step s e = some s') : s.sent <+: s'.sent := by
  rcases Process.step_cases hstep with ⟨ms, -, rfl⟩ | ⟨elem, -, rfl⟩ | ⟨T, -, -, rfl⟩ |
    ⟨T, closing, -, -, rfl⟩ | ⟨T, -, -, -, rfl⟩
  · exact List.prefix_refl _
  · exact List.prefix_refl _
  · exact List.prefix_refl _
  · exact List.prefix_append _ _
  · exact List.prefix_refl _

/-- An aggregator can go on until it has sent any number of ticks. -/
theorem exists_sent (interval : ℤ) (s : Process Price) (k : ℕ) :
    ∃ evs s', (Process.machine interval).run s evs = some s' ∧ k ≤ s'.sent.length := by
  induction k with
  | zero => exact ⟨[], s, rfl, Nat.zero_le _⟩
  | succ k ih =>
    obtain ⟨evs, m, hm, hk⟩ := ih
    obtain ⟨evs', s', hrun, hsent⟩ := Process.next_tick interval m
    exact ⟨evs ++ evs', s', Guarded.run_append_eq_some.2 ⟨m, hm, hrun⟩, by omega⟩

variable [Zero Price]

/-- A binance aggregator with the interval `i₁` and a bitmex aggregator with the interval `i₂`, sending
to an aligner. -/
def pipeline (DEBUG : Bool) (i₁ i₂ : ℤ) (garbage₁ garbage₂ : ℤ → ℤ × Price) :
    Fanin (Process Price) (Event Price) (Process Price) (Event Price) (Message Price)
      (TickMap Price) (Option (Record Price)) where
  left := Process.machine i₁
  right := Process.machine i₂
  leftSent s := s.sent.map (wire .binance garbage₁)
  rightSent s := s.sent.map (wire .bitmex garbage₂)
  receiver := aligner DEBUG

/-- A state of the pipeline. -/
abbrev State (Price : Type*) :=
  Fanin.State (Process Price) (Process Price) (Message Price) (TickMap Price) (Option (Record Price))

/-- A step of the pipeline. -/
abbrev Step (Price : Type*) := Fanin.Event (Event Price) (Event Price)

/-- The pipeline when the consumer threads of the two aggregators begin, with queues of `size` and
clocks that `get_closest_tp` read as `n₁` and `n₂`. -/
def start (size n₁ n₂ i₁ i₂ : ℤ) : Option (State Price) :=
  (Process.start size n₁ i₁).bind fun binance =>
    (Process.start size n₂ i₂).map fun bitmex => ⟨binance, bitmex, [], [], ∅, []⟩

/-- The records that the aligner has sent. -/
def sentRecords (s : State Price) : List (Record Price) := s.outputs.reduceOption

/-- The label after `k` ticks of an aggregator whose clock was first read as `n`. -/
def horizon (i n : ℤ) (k : ℕ) : ℤ := Grid.next i n + k * i

/-- More ticks get an aggregator further. -/
theorem horizon_le {i : ℤ} (hi : 0 < i) (n : ℤ) {k l : ℕ} (h : k ≤ l) :
    horizon i n k ≤ horizon i n l := by
  unfold horizon
  have := mul_le_mul_of_nonneg_right (Int.ofNat_le.2 h) hi.le
  omega

/-- Enough ticks get an aggregator past any label. -/
theorem exists_lt_horizon {i : ℤ} (hi : 0 < i) (n H : ℤ) : ∃ k, H < horizon i n k := by
  refine ⟨(H + 1 - Grid.next i n).toNat, ?_⟩
  have hk := Int.self_le_toNat (H + 1 - Grid.next i n)
  have hmul : ((H + 1 - Grid.next i n).toNat : ℤ) ≤ (H + 1 - Grid.next i n).toNat * i :=
    le_mul_of_one_le_right (Int.natCast_nonneg _) hi
  unfold horizon
  omega

/-- A stream of an aggregator: the ticks of `feed` whose labels are the first multiples of the interval
past the clock reading, in order. -/
structure Stream (feed : Feed) (i n : ℤ) (B : List (Message Price)) : Prop where
  id_eq : ∀ b ∈ B, b.id = feed.id
  labels : B.map Message.T = Grid.progression i (Grid.next i n) B.length

omit [Zero Price] in
/-- What comes first of the ticks of an aggregator is a stream. -/
theorem stream_of_isPrefix {feed : Feed} {i n : ℤ} {closings : List (ℤ × Price)}
    {B : List (Message Price)} (h : B <+: sendEvery feed i (Grid.next i n) closings) :
    Stream feed i n B := by
  obtain ⟨link, hlink⟩ := h
  refine ⟨fun b hb => id_of_mem_sendEvery (hlink ▸ List.mem_append_left link hb), ?_⟩
  have hlabels := map_T_sendEvery feed i (Grid.next i n) closings
  have hlen : closings.length = B.length + link.length := by
    rw [← List.length_append, hlink, ← List.length_map (f := Message.T), hlabels,
      Grid.length_progression]
  rw [← hlink, List.map_append, hlen, Grid.progression_add] at hlabels
  exact (List.append_inj hlabels (by rw [List.length_map, Grid.length_progression])).1

omit [Zero Price] in
/-- The labels of a stream are the multiples of its interval up to the horizon. -/
theorem Stream.mem_labels {feed : Feed} {i n : ℤ} {B : List (Message Price)} (h : Stream feed i n B)
    (hi : 0 < i) (T : ℤ) : T ∈ B.map Message.T ↔ i ∣ T ∧ n < T ∧ T < horizon i n B.length := by
  rw [h.labels, Grid.mem_progression hi (Grid.dvd_next i n)]
  constructor
  · rintro ⟨hd, hT, hend⟩
    exact ⟨hd, (Grid.next_le_iff hi n hd).1 hT, hend⟩
  · rintro ⟨hd, hT, hend⟩
    exact ⟨hd, (Grid.next_le_iff hi n hd).2 hT, hend⟩

omit [Zero Price] in
/-- Two streams of the two feeds can be joined. -/
theorem streams {i₁ i₂ n₁ n₂ : ℤ} (hi₁ : 0 < i₁) (hi₂ : 0 < i₂) {B M : List (Message Price)}
    (hB : Stream .binance i₁ n₁ B) (hM : Stream .bitmex i₂ n₂ M) : Streams B M where
  binance := hB.id_eq
  bitmex m hm := by rw [hM.id_eq m hm]; decide
  nodup_binance := by
    rw [hB.labels]
    exact (Grid.progression_pairwise hi₁ _ _).imp fun h => ne_of_lt h
  nodup_bitmex := by
    rw [hM.labels]
    exact (Grid.progression_pairwise hi₂ _ _).imp fun h => ne_of_lt h

end Typhoon.Pipeline
