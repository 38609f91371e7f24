import Mathlib.Data.List.ReduceOption
import Typhoon.Library.Machine

/-!
# Cutting a sequence into rounds

A round ends at the first element that makes it full. `Rounds.cut` cuts a list into the completed
rounds and the round under way. By `Rounds.cut_spec` the pieces make up the list, each completed
round is full and has no full proper prefix, and no prefix of the round under way is full.

`Rounds.run_cut` is the rule for a machine that works in rounds. If it stays quiet inside a round,
and answers a round's last element and falls back to its initial state, then over any list it
answers once for each completed round, at the round's last element, and is left in the state that
the round under way alone leads to.
-/

namespace Rounds

variable {α σ ω : Type*}

/-- The cut of a list after the elements `cur` of the round under way: the completed rounds, and
the round under way at the end. -/
def cutFrom (full : List α → Bool) (cur : List α) : List α → List (List α) × List α
  | [] => ([], cur)
  | a :: as =>
    if full (cur ++ [a]) then
      let r := cutFrom full [] as
      ((cur ++ [a]) :: r.1, r.2)
    else cutFrom full (cur ++ [a]) as

/-- The completed rounds of a list, and the round under way at its end. -/
def cut (full : List α → Bool) (as : List α) : List (List α) × List α := cutFrom full [] as

/-- A round under way: no prefix of it is full. -/
def Open (full : List α → Bool) (r : List α) : Prop := ∀ p, p <+: r → full p = false

/-- A completed round: it is full, and none of its proper prefixes is. -/
def Closed (full : List α → Bool) (r : List α) : Prop :=
  full r = true ∧ ∀ p, p <+: r → p ≠ r → full p = false

/-- The empty round is under way when the empty list is not full. -/
theorem open_nil {full : List α → Bool} (h : full [] = false) : Open full [] := by
  intro p hp
  rw [List.prefix_nil.1 hp, h]

/-- An element that does not fill the round under way leaves it under way. -/
theorem Open.concat {full : List α → Bool} {cur : List α} {a : α} (h : Open full cur)
    (ha : full (cur ++ [a]) = false) : Open full (cur ++ [a]) := by
  intro p hp
  rcases List.prefix_concat_iff.1 hp with rfl | hp'
  · exact ha
  · exact h p hp'

/-- An element that fills the round under way completes it. -/
theorem Open.close {full : List α → Bool} {cur : List α} {a : α} (h : Open full cur)
    (ha : full (cur ++ [a]) = true) : Closed full (cur ++ [a]) := by
  refine ⟨ha, fun p hp hne => ?_⟩
  rcases List.prefix_concat_iff.1 hp with rfl | hp'
  · exact absurd rfl hne
  · exact h p hp'

/-- Cutting keeps every element, in order: the rounds are complete, and what is left over is not. -/
theorem cutFrom_spec {full : List α → Bool} (hnil : full [] = false) (cur as : List α)
    (hcur : Open full cur) :
    (cutFrom full cur as).1.flatten ++ (cutFrom full cur as).2 = cur ++ as ∧
      (∀ r ∈ (cutFrom full cur as).1, Closed full r) ∧ Open full (cutFrom full cur as).2 := by
  induction as generalizing cur with
  | nil => simpa [cutFrom] using hcur
  | cons a as ih =>
    rw [List.append_cons]
    by_cases ha : full (cur ++ [a]) = true
    · obtain ⟨hflat, hclosed, hopen⟩ := ih [] (open_nil hnil)
      simp only [cutFrom, ha, if_true]
      refine ⟨?_, ?_, hopen⟩
      · rw [List.flatten_cons, List.append_assoc, hflat, List.nil_append]
      · intro r hr
        rcases List.mem_cons.1 hr with rfl | hr
        · exact hcur.close ha
        · exact hclosed r hr
    · simp only [cutFrom, ha]
      exact ih _ (hcur.concat (Bool.eq_false_iff.2 ha))

/-- What a cut is: its pieces make up the list, each completed round is full and has no full proper
prefix, and no prefix of the round under way is full. -/
theorem cut_spec (full : List α → Bool) (hnil : full [] = false) (as : List α) :
    (cut full as).1.flatten ++ (cut full as).2 = as ∧
      (∀ r ∈ (cut full as).1, Closed full r) ∧ Open full (cut full as).2 :=
  cutFrom_spec hnil [] as (open_nil hnil)

/-- The outputs over one completed round: quiet until its last element, which is answered. -/
def roundOutputs (quiet : ω) (answer : List α → ω) (r : List α) : List ω :=
  List.replicate (r.length - 1) quiet ++ [answer r]

/-- With silence for quiet, what is answered over completed rounds and a round under way is the
answers of the completed rounds. -/
theorem reduceOption_roundOutputs (answer : List α → Option ω) (rs : List (List α)) (n : ℕ) :
    (rs.flatMap (roundOutputs none answer) ++ List.replicate n none).reduceOption =
      rs.filterMap answer := by
  induction rs with
  | nil => simp
  | cons r rs ih =>
    rw [List.flatMap_cons, List.append_assoc, List.reduceOption_append, ih, roundOutputs,
      List.reduceOption_append, List.reduceOption_replicate_none, List.nil_append]
    cases h : answer r <;> simp [h]

/-- A machine that is quiet within a round, and answers at its end and starts again, answers each round of a
cut. -/
theorem run_cutFrom {full : List α → Bool} (hnil : full [] = false) (M : Machine σ α ω) (s₀ : σ)
    (quiet : ω) (answer : List α → ω)
    (hquiet : ∀ cur a, Open full (cur ++ [a]) → (M.step (M.state s₀ cur) a).2 = quiet)
    (hanswer : ∀ cur a, Closed full (cur ++ [a]) →
      M.step (M.state s₀ cur) a = (s₀, answer (cur ++ [a])))
    (cur as : List α) (hcur : Open full cur) :
    M.state (M.state s₀ cur) as = M.state s₀ (cutFrom full cur as).2 ∧
      List.replicate cur.length quiet ++ M.outputs (M.state s₀ cur) as =
        (cutFrom full cur as).1.flatMap (roundOutputs quiet answer) ++
          List.replicate (cutFrom full cur as).2.length quiet := by
  induction as generalizing cur with
  | nil => simp [cutFrom]
  | cons a as ih =>
    rw [Machine.state_cons, Machine.outputs_cons]
    by_cases ha : full (cur ++ [a]) = true
    -- `a` completes the round, and the machine starts the next one from `s₀`.
    · obtain ⟨hstate, hout⟩ := ih [] (open_nil hnil)
      rw [Machine.state_nil] at hstate hout
      rw [hanswer cur a (hcur.close ha)]
      simp only [cutFrom, ha, if_true]
      refine ⟨hstate, ?_⟩
      rw [List.flatMap_cons, List.append_assoc, ← hout]
      simp [roundOutputs]
    -- `a` joins the round under way.
    · have hopen := hcur.concat (Bool.eq_false_iff.2 ha)
      obtain ⟨hstate, hout⟩ := ih _ hopen
      rw [Machine.state_concat] at hstate hout
      simp only [cutFrom, ha]
      refine ⟨hstate, ?_⟩
      rw [hquiet cur a hopen]
      simpa [List.replicate_succ'] using hout

/-- A machine that works in rounds, over any list: it is left in the state that the round under way
leads to, and its outputs are those of the completed rounds, then quiet. -/
theorem run_cut {full : List α → Bool} (hnil : full [] = false) (M : Machine σ α ω) (s₀ : σ)
    (quiet : ω) (answer : List α → ω)
    (hquiet : ∀ cur a, Open full (cur ++ [a]) → (M.step (M.state s₀ cur) a).2 = quiet)
    (hanswer : ∀ cur a, Closed full (cur ++ [a]) →
      M.step (M.state s₀ cur) a = (s₀, answer (cur ++ [a])))
    (as : List α) :
    M.state s₀ as = M.state s₀ (cut full as).2 ∧
      M.outputs s₀ as =
        (cut full as).1.flatMap (roundOutputs quiet answer) ++
          List.replicate (cut full as).2.length quiet := by
  simpa [cut] using run_cutFrom hnil M s₀ quiet answer hquiet hanswer [] as (open_nil hnil)

end Rounds
