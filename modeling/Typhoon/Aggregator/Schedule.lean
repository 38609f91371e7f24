import Typhoon.Library.Grid
import Typhoon.Message

/-!
# The tick schedule of an aggregator

`get_closest_tp` and the labels that `send_every` sends, of `src/provider/aggregator.cpp`. The label
of the first tick is the clock reading rounded up past itself to a multiple of the interval, and each
next label is an interval later, so the labels are a progression on the grid of the interval
(`map_T_sendEvery`, `mem_labels`).
-/

namespace Typhoon.Aggregator

variable {Price : Type*}

/-- `get_closest_tp` on a clock reading of `now` milliseconds. The C++ `%` truncates; its remainder by
zero is undefined, and `none` here. -/
def getClosestTp (now interval : ℤ) : Option ℤ :=
  if interval = 0 then none else some (now - now.tmod interval + interval)

/-- What `get_closest_tp` returns, when it returns. -/
theorem getClosestTp_eq_some {now interval F : ℤ} (hF : getClosestTp now interval = some F) :
    interval ≠ 0 ∧ F = now - now.tmod interval + interval := by
  unfold getClosestTp at hF
  split_ifs at hF with hi
  exact ⟨hi, (Option.some.inj hF).symm⟩

/-- For a positive interval and a clock at or past the epoch, `get_closest_tp` is the next multiple of
the interval. -/
theorem getClosestTp_eq {now interval : ℤ} (hi : 0 < interval) (hn : 0 ≤ now) :
    getClosestTp now interval = some (Grid.next interval now) := by
  unfold getClosestTp Grid.next
  rw [if_neg (by omega), Int.tmod_eq_emod_of_nonneg hn]

/-- `get_closest_tp` in the code's own types: the clock reading is a count of 64 bits, and the interval,
an `int`, is extended to it. -/
def getClosestTp64 (now : Int64) (interval : Int32) : Option Int64 :=
  if interval = 0 then none else some (now - now % interval.toInt64 + interval.toInt64)

/-- The remainder of a clock reading is not above it. -/
theorem tmod_le_self {now : ℤ} (hn : 0 ≤ now) (interval : ℤ) : now.tmod interval ≤ now := by
  have habs := Int.natAbs_tmod now interval
  have hle := Nat.mod_le now.natAbs interval.natAbs
  have hnonneg := Int.tmod_nonneg interval hn
  omega

/-- Where its sum fits in 64 bits, `get_closest_tp` computes with integers. -/
theorem map_toInt_getClosestTp64 {now : Int64} {interval : Int32} (hn : 0 ≤ now.toInt)
    (hsum : now.toInt - now.toInt.tmod interval.toInt + interval.toInt < 2 ^ 63) :
    (getClosestTp64 now interval).map Int64.toInt = getClosestTp now.toInt interval.toInt := by
  unfold getClosestTp64 getClosestTp
  by_cases hi : interval = 0
  · subst hi
    rfl
  · have hi' : interval.toInt ≠ 0 := fun h => hi (Int32.toInt_inj.1 h)
    rw [if_neg hi, if_neg hi', Option.map_some]
    congr 1
    have hmod := Int.tmod_nonneg interval.toInt hn
    have hle := tmod_le_self hn interval.toInt
    have hmax := now.toInt_lt
    have hmin := interval.le_toInt
    -- Neither the difference, which is not above the reading, nor the sum wraps.
    have hsub : (now - now % interval.toInt64).toInt =
        now.toInt - now.toInt.tmod interval.toInt := by
      rw [Int64.toInt_sub, Int64.toInt_mod, Int32.toInt_toInt64]
      apply Int.bmod_eq_of_le_mul_two <;> omega
    rw [Int64.toInt_add, hsub, Int32.toInt_toInt64]
    apply Int.bmod_eq_of_le_mul_two <;> omega

/-- For a negative interval, `get_closest_tp` gives an instant that has passed. -/
theorem getClosestTp_lt_of_neg {now interval F : ℤ} (hi : interval < 0) (hn : 0 ≤ now)
    (hF : getClosestTp now interval = some F) : F < now := by
  have hmod := Int.tmod_nonneg interval hn
  obtain ⟨-, rfl⟩ := getClosestTp_eq_some hF
  calc now - now.tmod interval + interval
    _ < now - now.tmod interval := by omega
    _ ≤ now := by omega

/-- The feed that an aggregator is built for, `BINANCE` or `BITMEX`. -/
inductive Feed
  | binance
  | bitmex
  deriving DecidableEq

/-- The `id` that a build's ticks carry. -/
def Feed.id : Feed → ℤ
  | .binance => 1
  | .bitmex => 2

/-- The tick that an iteration of `send_every` sends for the closing that `exec` returned. -/
def tickMessage (feed : Feed) (nextStartTime : ℤ) (closing : ℤ × Price) : Message Price :=
  ⟨nextStartTime, feed.id, closing.2, closing.1⟩

/-- The loop of `send_every`: the ticks sent for a list of closings, the first labelled
`nextStartTime` and each next one an interval later. -/
def sendEvery (feed : Feed) (interval nextStartTime : ℤ) : List (ℤ × Price) → List (Message Price)
  | [] => []
  | closing :: closings =>
    tickMessage feed nextStartTime closing ::
      sendEvery feed interval (nextStartTime + interval) closings

/-- The ticks sent are labelled one interval after another, one for each closing. -/
theorem map_T_sendEvery (feed : Feed) (interval nextStartTime : ℤ) (closings : List (ℤ × Price)) :
    (sendEvery feed interval nextStartTime closings).map Message.T =
      Grid.progression interval nextStartTime closings.length := by
  induction closings generalizing nextStartTime with
  | nil => rfl
  | cons closing closings ih =>
    rw [sendEvery, List.map_cons, ih, List.length_cons, Grid.progression]
    rfl

/-- Every tick carries the `id` of its build. -/
theorem id_of_mem_sendEvery {feed : Feed} {interval nextStartTime : ℤ}
    {closings : List (ℤ × Price)} {msg : Message Price}
    (h : msg ∈ sendEvery feed interval nextStartTime closings) : msg.id = feed.id := by
  induction closings generalizing nextStartTime with
  | nil => exact absurd h List.not_mem_nil
  | cons closing closings ih =>
    rcases List.mem_cons.1 h with rfl | h
    · rfl
    · exact ih h

/-- More closings add ticks at the end. -/
theorem sendEvery_append (feed : Feed) (interval nextStartTime : ℤ)
    (closings closings' : List (ℤ × Price)) :
    sendEvery feed interval nextStartTime (closings ++ closings') =
      sendEvery feed interval nextStartTime closings ++
        sendEvery feed interval (nextStartTime + closings.length * interval) closings' := by
  induction closings generalizing nextStartTime with
  | nil => simp [sendEvery]
  | cons closing closings ih =>
    -- The rest of the loop starts an interval later, for one closing less.
    have hstart : nextStartTime + interval + closings.length * interval =
        nextStartTime + ((closings.length + 1 : ℕ) : ℤ) * interval := by
      push_cast
      ring
    rw [List.cons_append, sendEvery, ih, sendEvery, List.cons_append, List.length_cons, hstart]

section Labels

variable {interval : ℤ} (hi : 0 < interval) (now : ℤ) (feed : Feed) (closings : List (ℤ × Price))
include hi

/-- The labels that an aggregator started at the clock reading `now` sends are the multiples of the
interval past `now`, up to the last one sent. -/
theorem mem_labels (T : ℤ) :
    T ∈ (sendEvery feed interval (Grid.next interval now) closings).map Message.T ↔
      interval ∣ T ∧ now < T ∧ T < Grid.next interval now + closings.length * interval := by
  rw [map_T_sendEvery, Grid.mem_progression hi (Grid.dvd_next interval now)]
  constructor
  · rintro ⟨hd, hT, hend⟩
    exact ⟨hd, (Grid.next_le_iff hi now hd).1 hT, hend⟩
  · rintro ⟨hd, hT, hend⟩
    exact ⟨hd, (Grid.next_le_iff hi now hd).2 hT, hend⟩

/-- No label is sent twice. -/
theorem nodup_labels :
    ((sendEvery feed interval (Grid.next interval now) closings).map Message.T).Nodup := by
  rw [map_T_sendEvery]
  exact (Grid.progression_pairwise hi _ _).imp fun h => ne_of_lt h

/-- What an aggregator sends once it has sent the ticks of `closings` is labelled past them. -/
theorem label_of_mem_later {closings' : List (ℤ × Price)} {msg : Message Price}
    (hmsg : msg ∈ sendEvery feed interval
      (Grid.next interval now + closings.length * interval) closings') :
    Grid.next interval now + closings.length * interval ≤ msg.T := by
  have hT := List.mem_map_of_mem (f := Message.T) hmsg
  rw [map_T_sendEvery] at hT
  exact (Grid.range_of_mem_progression hi hT).1

end Labels

end Typhoon.Aggregator
