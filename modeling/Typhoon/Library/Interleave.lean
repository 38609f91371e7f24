import Mathlib.Data.List.Perm.Basic
import Mathlib.Tactic.Common

/-!
# Interleavings of two sequences

`Interleave as bs cs` says that `cs` is an arrival order of the elements of `as` and `bs` that keeps
the order of each, with none lost or duplicated. Where each sequence has distinct keys, the elements
of a key in the interleaving are at most one of each sequence, in one of two orders
(`Interleave.filter_key`). `perm_of_filter_key` puts what is known of each key together again.
-/

/-- Where keys are distinct, a key has at most one element. -/
theorem filter_key_of_nodup {α κ : Type*} [DecidableEq κ] {f : α → κ} {l : List α}
    (h : (l.map f).Nodup) (k : κ) :
    l.filter (f · = k) = [] ∨ ∃ a, l.filter (f · = k) = [a] := by
  induction l with
  | nil => exact .inl rfl
  | cons a l ih =>
    rw [List.map_cons, List.nodup_cons] at h
    by_cases hk : f a = k
    -- No later element has the key of `a`.
    · have hrest : l.filter (f · = k) = [] := by
        rw [List.filter_eq_nil_iff]
        intro x hx hxk
        exact h.1 (List.mem_map.2 ⟨x, hx, (of_decide_eq_true hxk).trans hk.symm⟩)
      exact .inr ⟨a, by rw [List.filter_cons_of_pos (by simpa using hk), hrest]⟩
    · rw [List.filter_cons_of_neg (by simpa using hk)]
      exact ih h.2

/-- `cs` takes its elements from the front of `as` or of `bs`, in some order, until both are
used up. -/
inductive Interleave {α : Type*} : List α → List α → List α → Prop
  | nil : Interleave [] [] []
  | left {a : α} {as bs cs : List α} : Interleave as bs cs → Interleave (a :: as) bs (a :: cs)
  | right {b : α} {as bs cs : List α} : Interleave as bs cs → Interleave as (b :: bs) (b :: cs)

namespace Interleave

variable {α : Type*} {as bs cs : List α}

/-- An interleaving is a permutation of its two sequences. -/
theorem perm (h : Interleave as bs cs) : cs.Perm (as ++ bs) := by
  induction h with
  | nil => exact List.Perm.refl _
  | left _ ih => exact ih.cons _
  | right _ ih => exact (ih.cons _).trans List.perm_middle.symm

/-- One more element of the left sequence arrives. -/
theorem concat_left (h : Interleave as bs cs) (a : α) : Interleave (as ++ [a]) bs (cs ++ [a]) := by
  induction h with
  | nil => exact .left .nil
  | left _ ih => exact .left ih
  | right _ ih => exact .right ih

/-- One more element of the right sequence arrives. -/
theorem concat_right (h : Interleave as bs cs) (b : α) : Interleave as (bs ++ [b]) (cs ++ [b]) := by
  induction h with
  | nil => exact .right .nil
  | left _ ih => exact .left ih
  | right _ ih => exact .right ih

/-- When the two sequences go on, what arrives later comes from what they go on with. -/
theorem mem_later {as' bs' cs' : List α} (h : Interleave as bs cs)
    (h' : Interleave (as ++ as') (bs ++ bs') (cs ++ cs')) {x : α} (hx : x ∈ cs') :
    x ∈ as' ∨ x ∈ bs' := by
  have hperm : (cs ++ cs').Perm (cs ++ (as' ++ bs')) := by
    calc (cs ++ cs').Perm ((as ++ as') ++ (bs ++ bs')) := h'.perm
      _ = as ++ (as' ++ (bs ++ bs')) := List.append_assoc _ _ _
      List.Perm _ (as ++ (bs ++ (as' ++ bs'))) :=
        (List.perm_append_comm_assoc as' bs bs').append_left as
      _ = (as ++ bs) ++ (as' ++ bs') := (List.append_assoc _ _ _).symm
      List.Perm _ (cs ++ (as' ++ bs')) := h.perm.symm.append_right _
  rw [((List.perm_append_left_iff cs).1 hperm).mem_iff, List.mem_append] at hx
  exact hx

/-- Filtering an interleaving interleaves the filtered sequences. -/
theorem filter (h : Interleave as bs cs) (p : α → Bool) :
    Interleave (as.filter p) (bs.filter p) (cs.filter p) := by
  induction h with
  | nil => exact .nil
  | @left a _ _ _ _ ih =>
    cases hp : p a
    · simpa [hp] using ih
    · simpa [hp] using ih.left
  | @right b _ _ _ _ ih =>
    cases hp : p b
    · simpa [hp] using ih
    · simpa [hp] using ih.right

/-- Nothing interleaves with nothing. -/
theorem eq_nil (h : Interleave [] [] cs) : cs = [] := by
  cases h
  rfl

/-- With nothing on the right, an interleaving is its left sequence. -/
theorem eq_left (h : Interleave as [] cs) : cs = as := by
  induction as generalizing cs with
  | nil => exact h.eq_nil
  | cons a as ih =>
    cases h with
    | left h => rw [ih h]

/-- With nothing on the left, an interleaving is its right sequence. -/
theorem eq_right (h : Interleave [] bs cs) : cs = bs := by
  induction bs generalizing cs with
  | nil => exact h.eq_nil
  | cons b bs ih =>
    cases h with
    | right h => rw [ih h]

/-- Two single elements arrive in one of two orders. -/
theorem eq_pair {a b : α} (h : Interleave [a] [b] cs) : cs = [a, b] ∨ cs = [b, a] := by
  cases h with
  | left h => exact .inl (by rw [h.eq_right])
  | right h => exact .inr (by rw [h.eq_left])

/-- In an interleaving of two sequences with distinct keys, a key has no element, one of either, or one of
each. -/
theorem filter_key {κ : Type*} [DecidableEq κ] {f : α → κ} (h : Interleave as bs cs)
    (has : (as.map f).Nodup) (hbs : (bs.map f).Nodup) (k : κ) :
    (as.filter (f · = k) = [] ∧ bs.filter (f · = k) = [] ∧ cs.filter (f · = k) = []) ∨
    (∃ a, as.filter (f · = k) = [a] ∧ bs.filter (f · = k) = [] ∧ cs.filter (f · = k) = [a]) ∨
    (∃ b, as.filter (f · = k) = [] ∧ bs.filter (f · = k) = [b] ∧ cs.filter (f · = k) = [b]) ∨
    ∃ a b, as.filter (f · = k) = [a] ∧ bs.filter (f · = k) = [b] ∧
      (cs.filter (f · = k) = [a, b] ∨ cs.filter (f · = k) = [b, a]) := by
  have hk := h.filter (f · = k)
  -- Each sequence has at most one element of the key, so four interleavings are left.
  rcases filter_key_of_nodup has k with ha | ⟨a, ha⟩ <;>
    rcases filter_key_of_nodup hbs k with hb | ⟨b, hb⟩ <;> rw [ha, hb] at hk ⊢
  · exact .inl ⟨rfl, rfl, hk.eq_nil⟩
  · exact .inr (.inr (.inl ⟨b, rfl, rfl, hk.eq_right⟩))
  · exact .inr (.inl ⟨a, rfl, rfl, hk.eq_left⟩)
  · exact .inr (.inr (.inr ⟨a, b, rfl, rfl, hk.eq_pair⟩))

end Interleave

/-- Two lists are permutations of each other if they are on each key. -/
theorem perm_of_filter_key {α κ : Type*} [DecidableEq κ] (f : α → κ) {l l' : List α}
    (h : ∀ k, (l.filter (f · = k)).Perm (l'.filter (f · = k))) : l.Perm l' := by
  classical
  rw [List.perm_iff_count]
  intro a
  have hcount := (h (f a)).count_eq a
  rwa [List.count_filter (by simp), List.count_filter (by simp)] at hcount
