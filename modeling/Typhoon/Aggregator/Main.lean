import Typhoon.Aggregator.Process
import Typhoon.Library.Atoi

/-!
# The command line of an aggregator

`main` of `src/provider/aggregator.cpp` up to the start of its two threads. It checks the number of its
arguments and nothing else of them: the interval is what `atoi` returns, which is 0 for a text without
a number and may be negative. `main_schedules_iff` says what follows. Once the receiver is bound, the
schedule is well defined exactly when the first argument starts with a positive number: with 0,
`get_closest_tp` computes a remainder by zero, and with a negative number its result and the labels lie
ever further back.

`main` computes with the code's `int` and 64-bit types. The labels of a run are integers, as in
`Process.lean`. Which addresses the receiver can be bound to is a parameter.
-/

namespace Typhoon.Aggregator

open CString (FitsInt StartsPositive atoi leadingInt)

variable {Price : Type*}

/-- What `main` comes to. -/
inductive Outcome (Price : Type*)
  /-- It prints its usage and returns. -/
  | usage
  /-- `receiver.bind` throws. -/
  | unbound (bind_addr : String)
  /-- `get_closest_tp` computes a remainder by zero. -/
  | remainderByZero
  /-- The consumer thread begins. -/
  | running (interval : Int32) (s₀ : Process Price)

/-- The address that `main` binds the receiver to. -/
def bindAddr (port : Int32) : String := "tcp://*:" ++ toString port.toInt

/-- `main`, on its arguments with the name of the program in front, where `bind` says which addresses
the receiver can be bound to and the clock reads `now` when `get_closest_tp` is called. -/
def main (undefined : CString → Int32) (bind : String → Bool) (argv : List CString) (now : Int64) :
    Outcome Price :=
  match argv with
  | [_, agg_interval, port] =>
    let interval := atoi undefined agg_interval
    let bind_addr := bindAddr (atoi undefined port)
    if bind bind_addr then
      match getClosestTp64 now interval with
      | none => .remainderByZero
      | some nextStartTime =>
        .running interval ⟨now.toInt, .construct 1000, .exec nextStartTime.toInt, []⟩
    else .unbound bind_addr
  | _ => .usage

/-- The schedule of an aggregator that begins in `s₀`, with the label that `get_closest_tp` returned
for the clock reading `now`. -/
structure Schedule (now interval : ℤ) (s₀ : Process Price) : Prop where
  /-- The first label is past the clock reading. -/
  lt_first : now < s₀.consumer.label
  /-- The first label is a multiple of the interval. -/
  dvd_first : interval ∣ s₀.consumer.label
  /-- The labels of every run begin with it. -/
  begins : ∀ evs s, (Process.machine interval).run s₀ evs = some s →
    ∀ T ∈ (s.sent.map Sent.T).head?, T = s₀.consumer.label
  /-- Each further label is an interval after the one before. -/
  steps : ∀ evs s, (Process.machine interval).run s₀ evs = some s →
    (s.sent.map Sent.T).IsChain fun T T' => T' = T + interval
  /-- The labels increase strictly. -/
  increasing : ∀ evs s, (Process.machine interval).run s₀ evs = some s →
    (s.sent.map Sent.T).Pairwise (· < ·)
  /-- Every run can go on to its next tick. -/
  unending : ∀ evs s, (Process.machine interval).run s₀ evs = some s →
    ∃ evs' s', (Process.machine interval).run s₀ (evs ++ evs') = some s' ∧
      s'.sent.length = s.sent.length + 1

/-- `main` computes no remainder by zero, and if it starts the consumer thread, the schedule is well
defined. -/
def Schedules (now : Int64) : Outcome Price → Prop
  | .usage => True
  | .unbound _ => True
  | .remainderByZero => False
  | .running interval s₀ => Schedule now.toInt interval.toInt s₀

/-- The schedule of a positive interval is well defined. -/
theorem schedule_of_pos {size now interval : ℤ} (hi : 0 < interval) (hn : 0 ≤ now)
    {s₀ : Process Price} (h0 : Process.start size now interval = some s₀) :
    Schedule now interval s₀ := by
  have hF := getClosestTp_eq hi hn
  have hlabel : s₀.consumer.label = Grid.next interval now := by
    rw [Process.start_eq hF h0]
    rfl
  have hlabels : ∀ evs s, (Process.machine interval).run s₀ evs = some s → s.sent.map Sent.T =
      Grid.progression interval (Grid.next interval now) s.sent.length :=
    fun evs s hrun => (Process.labels_eq hF h0 hrun).2
  refine ⟨?_, ?_, ?_, ?_, ?_, ?_⟩
  · rw [hlabel]
    exact Grid.lt_next hi now
  · rw [hlabel]
    exact Grid.dvd_next interval now
  · intro evs s hrun T hT
    rw [hlabels evs s hrun] at hT
    rw [hlabel]
    exact Grid.head?_progression hT
  · intro evs s hrun
    rw [hlabels evs s hrun]
    exact Grid.progression_isChain _ _ _
  · intro evs s hrun
    rw [hlabels evs s hrun]
    exact Grid.progression_pairwise hi _ _
  · intro evs s hrun
    obtain ⟨evs', s', hrun', hsent⟩ := Process.next_tick interval s
    exact ⟨evs', s', Guarded.run_append_eq_some.2 ⟨s, hrun, hrun'⟩, hsent⟩

/-- Only the schedule of a positive interval is well defined: with a negative one, the first label has
passed. -/
theorem pos_of_schedule {size now interval : ℤ} (hn : 0 ≤ now) {s₀ : Process Price}
    (h0 : Process.start size now interval = some s₀) (h : Schedule now interval s₀) :
    0 < interval := by
  obtain ⟨F, hF, rfl⟩ := Process.start_eq_some h0
  by_contra hneg
  obtain ⟨hzero, -⟩ := getClosestTp_eq_some hF
  have hlt := getClosestTp_lt_of_neg (by omega) hn hF
  have hfirst : now < F := h.lt_first
  omega

/-- The consumer thread begins with a well-defined schedule exactly when the interval is positive. -/
theorem exists_schedule_iff {size now interval : ℤ} (hn : 0 ≤ now) :
    (∃ s₀ : Process Price, Process.start size now interval = some s₀ ∧ Schedule now interval s₀) ↔
      0 < interval := by
  constructor
  · rintro ⟨s₀, h0, h⟩
    exact pos_of_schedule hn h0 h
  · intro hi
    obtain ⟨s₀, h0⟩ : ∃ s₀ : Process Price, Process.start size now interval = some s₀ := by
      rw [Process.start, getClosestTp_eq hi hn]
      exact ⟨_, rfl⟩
    exact ⟨s₀, h0, schedule_of_pos hi hn h0⟩

/-- Once the receiver is bound, and where the sum of `get_closest_tp` fits in 64 bits, `main` starts the
aggregator of its interval, if there is a remainder. -/
theorem main_eq (undefined : CString → Int32) {bind : String → Bool}
    (program agg_interval port : CString) {now : Int64}
    (hbind : bind (bindAddr (atoi undefined port)) = true) (hn : 0 ≤ now.toInt)
    (hsum : now.toInt - now.toInt.tmod (atoi undefined agg_interval).toInt +
      (atoi undefined agg_interval).toInt < 2 ^ 63) :
    (main undefined bind [program, agg_interval, port] now : Outcome Price) =
      match Process.start 1000 now.toInt (atoi undefined agg_interval).toInt with
      | none => .remainderByZero
      | some s₀ => .running (atoi undefined agg_interval) s₀ := by
  unfold main Process.start
  rw [← map_toInt_getClosestTp64 hn hsum]
  dsimp only
  rw [if_pos hbind]
  cases getClosestTp64 now (atoi undefined agg_interval) with
  | none => rfl
  | some F => rfl

/-- What `atoi` makes of an argument is positive exactly when the argument starts with a positive
number, where that is an `int`. -/
theorem atoi_pos_iff (undefined : CString → Int32) (s : CString) :
    0 < (atoi undefined s).toInt ↔ (FitsInt (leadingInt s) → StartsPositive s) ∧
      (¬ FitsInt (leadingInt s) → 0 < (undefined s).toInt) := by
  by_cases hfits : FitsInt (leadingInt s)
  · rw [CString.toInt_atoi undefined hfits, CString.leadingInt_pos_iff]
    simp [hfits]
  · rw [atoi, if_neg hfits]
    simp [hfits]

/-- On a command line of two arguments, `main` runs a well-defined schedule exactly when, if it can bind
the receiver, the first argument starts with a positive number, or, where the number there is not an
`int`, `atoi` still returns a positive one. -/
theorem main_schedules_iff (undefined : CString → Int32) (bind : String → Bool)
    (program agg_interval port : CString) {now : Int64} (hn : 0 ≤ now.toInt)
    (hsum : now.toInt - now.toInt.tmod (atoi undefined agg_interval).toInt +
      (atoi undefined agg_interval).toInt < 2 ^ 63) :
    Schedules now (main undefined bind [program, agg_interval, port] now : Outcome Price) ↔
      (bind (bindAddr (atoi undefined port)) = true →
        (FitsInt (leadingInt agg_interval) → StartsPositive agg_interval) ∧
          (¬ FitsInt (leadingInt agg_interval) → 0 < (undefined agg_interval).toInt)) := by
  rw [← atoi_pos_iff]
  by_cases hbind : bind (bindAddr (atoi undefined port)) = true
  · rw [main_eq undefined program agg_interval port hbind hn hsum, ← exists_schedule_iff hn]
    cases hstart : (Process.start 1000 now.toInt (atoi undefined agg_interval).toInt :
        Option (Process Price)) with
    | none => simp [Schedules, hbind]
    | some s₀ => simp [Schedules, hbind]
  -- `bind` throws, and there is no schedule.
  · have hmain : (main undefined bind [program, agg_interval, port] now : Outcome Price) =
        .unbound (bindAddr (atoi undefined port)) := by
      unfold main
      dsimp only
      rw [if_neg hbind]
    rw [hmain]
    simp [Schedules, hbind]

/-- An interval of a second, in an aggregator started at the clock reading 1500. -/
theorem main_schedules_thousand :
    (0 : ℤ) ≤ (1500 : Int64).toInt ∧
      Schedules 1500 (main (fun _ => 0) (fun _ => true)
        [⟨[97], by decide⟩, ⟨[49, 48, 48, 48], by decide⟩, ⟨[53, 48, 48, 48], by decide⟩]
        1500 : Outcome ℤ) := by
  refine ⟨by decide, (main_schedules_iff _ _ _ _ _ (by decide) (by decide)).2 fun _ => ?_⟩
  exact ⟨fun _ => by decide, fun h => absurd (by decide) h⟩

/-- With the interval 0 there is no remainder, and with the interval -1000 the first label of an
aggregator started at the clock reading 1500 is 0. -/
theorem not_main_schedules :
    ¬ Schedules 1500 (main (fun _ => 0) (fun _ => true)
        [⟨[97], by decide⟩, ⟨[48], by decide⟩, ⟨[53, 48, 48, 48], by decide⟩] 1500 : Outcome ℤ) ∧
      ¬ Schedules 1500 (main (fun _ => 0) (fun _ => true)
        [⟨[97], by decide⟩, ⟨[45, 49, 48, 48, 48], by decide⟩, ⟨[53, 48, 48, 48], by decide⟩]
        1500 : Outcome ℤ) := by
  refine ⟨fun h => h, fun h => ?_⟩
  have hfirst : (1500 : ℤ) < 0 := h.lt_first
  exact absurd hfirst (by decide)

end Typhoon.Aggregator
