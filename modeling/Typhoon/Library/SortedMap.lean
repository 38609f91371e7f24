import Mathlib.Data.List.Induction
import Mathlib.Data.List.Lookmap
import Mathlib.Tactic.Common

/-!
# Maps as sorted lists

A map with ordered keys is the list of its entries in the order of their keys. `emplace` adds an entry
unless its key is there, as `std::map` does, so of the entries that are added one after another the first
one with a key stays (`lookup_ofList`). A list that is sorted already comes back as it is
(`ofList_of_sorted`).
-/

namespace SortedMap

variable {K V : Type*} [LT K] [DecidableLT K] [DecidableEq K]

/-- Add an entry, unless there is one with its key. -/
def emplace (k : K) (v : V) : List (K × V) → List (K × V)
  | [] => [(k, v)]
  | (k', v') :: m =>
    if k < k' then (k, v) :: (k', v') :: m
    else if k = k' then (k', v') :: m
    else (k', v') :: emplace k v m

/-- The map of entries that are added one after another. -/
def ofList (entries : List (K × V)) : List (K × V) :=
  entries.foldl (fun m e => emplace e.1 e.2 m) []

omit [DecidableLT K] [DecidableEq K] in
/-- The keys increase. -/
def Sorted (m : List (K × V)) : Prop := (m.map Prod.fst).Pairwise (· < ·)

/-- One more entry is emplaced into the map of those before it. -/
theorem ofList_concat (entries : List (K × V)) (k : K) (v : V) :
    ofList (entries ++ [(k, v)]) = emplace k v (ofList entries) := by
  simp [ofList]

/-- Emplacing adds nothing but the entry. -/
theorem mem_emplace {k : K} {v : V} {m : List (K × V)} {e : K × V} (h : e ∈ emplace k v m) :
    e = (k, v) ∨ e ∈ m := by
  induction m with
  | nil => exact .inl (List.mem_singleton.1 h)
  | cons e' m ih =>
    obtain ⟨k', v'⟩ := e'
    rw [emplace] at h
    split_ifs at h with h1 h2
    · exact List.mem_cons.1 h
    · exact .inr h
    · rcases List.mem_cons.1 h with rfl | h
      · exact .inr (List.mem_cons_self ..)
      · exact (ih h).imp id (List.mem_cons_of_mem _)

/-- Every entry of the map was added. -/
theorem mem_of_mem_ofList {entries : List (K × V)} {e : K × V} (h : e ∈ ofList entries) :
    e ∈ entries := by
  induction entries using List.reverseRecOn with
  | nil => exact h
  | append_singleton entries last ih =>
    obtain ⟨k, v⟩ := last
    rw [ofList_concat] at h
    rcases mem_emplace h with rfl | h
    · exact List.mem_append_right _ (List.mem_singleton_self _)
    · exact List.mem_append_left _ (ih h)

/-- An entry past all keys goes to the end. -/
theorem emplace_of_lt [Std.Asymm fun a b : K => a < b] {k : K} (v : V) {m : List (K × V)}
    (h : ∀ e ∈ m, e.1 < k) : emplace k v m = m ++ [(k, v)] := by
  induction m with
  | nil => rfl
  | cons e m ih =>
    obtain ⟨k', v'⟩ := e
    have hlt : k' < k := h _ (List.mem_cons_self ..)
    have hnlt : ¬ k < k' := Std.Asymm.asymm _ _ hlt
    have hne : k ≠ k' := by
      rintro rfl
      exact hnlt hlt
    rw [emplace, if_neg hnlt, if_neg hne, ih fun e he => h e (List.mem_cons_of_mem _ he),
      List.cons_append]

/-- A sorted list is the map of its entries. -/
theorem ofList_of_sorted [Std.Asymm fun a b : K => a < b] {m : List (K × V)} (h : Sorted m) :
    ofList m = m := by
  induction m using List.reverseRecOn with
  | nil => rfl
  | append_singleton m last ih =>
    obtain ⟨k, v⟩ := last
    rw [Sorted, List.map_append, List.pairwise_append] at h
    obtain ⟨hm, -, hlt⟩ := h
    rw [ofList_concat, ih hm]
    exact emplace_of_lt v fun e he => hlt _ (List.mem_map_of_mem he) _ (List.mem_singleton_self _)

section

variable [Std.Trichotomous fun a b : K => a < b] [Trans (fun a b : K => a < b) (fun a b : K => a < b)
  fun a b : K => a < b]

/-- The keys still increase with one more entry. -/
theorem Sorted.emplace {m : List (K × V)} (h : Sorted m) (k : K) (v : V) :
    Sorted (emplace k v m) := by
  induction m with
  | nil => exact List.pairwise_singleton _ _
  | cons e m ih =>
    obtain ⟨k', v'⟩ := e
    obtain ⟨hhead, htail⟩ := List.pairwise_cons.1 h
    rw [SortedMap.emplace]
    split_ifs with h1 h2
    · refine List.pairwise_cons.2 ⟨fun a ha => ?_, h⟩
      rcases List.mem_cons.1 ha with rfl | ha
      · exact h1
      · exact Std.lt_trans h1 (hhead a ha)
    · exact h
    · have hlt : k' < k := ((Std.lt_trichotomy k k').resolve_left h1).resolve_left h2
      refine List.pairwise_cons.2 ⟨fun a ha => ?_, ih htail⟩
      obtain ⟨e, he, rfl⟩ := List.mem_map.1 ha
      rcases mem_emplace he with rfl | he
      · exact hlt
      · exact hhead _ (List.mem_map_of_mem he)

/-- The map of entries is sorted. -/
theorem sorted_ofList (entries : List (K × V)) : Sorted (ofList entries) := by
  induction entries using List.reverseRecOn with
  | nil => exact List.Pairwise.nil
  | append_singleton entries last ih =>
    obtain ⟨k, v⟩ := last
    rw [ofList_concat]
    exact ih.emplace k v

end

variable [BEq K] [LawfulBEq K]

omit [LT K] [DecidableLT K] in
/-- A key stands for the value of its first entry. -/
theorem lookup_cons (x k : K) (v : V) (m : List (K × V)) :
    ((k, v) :: m).lookup x = if x = k then some v else m.lookup x := by
  by_cases hx : x = k
  · simp [hx]
  · have hbeq : (x == k) = false := beq_false_of_ne hx
    rw [if_neg hx, List.lookup_cons, hbeq]

omit [LT K] [DecidableLT K] [DecidableEq K] in
/-- A key that is missing from the entries stands for nothing. -/
theorem lookup_eq_none {x : K} {m : List (K × V)} (h : x ∉ m.map Prod.fst) : m.lookup x = none := by
  rw [List.lookup_eq_none_iff]
  intro e he
  have hne : x ≠ e.1 := by
    rintro rfl
    exact h (List.mem_map_of_mem he)
  exact bne_iff_ne.2 hne

/-- What a key stands for once an entry is added: what it stood for, and else what is added. -/
theorem lookup_emplace [Std.Irrefl fun a b : K => a < b]
    [Trans (fun a b : K => a < b) (fun a b : K => a < b) fun a b : K => a < b]
    {m : List (K × V)} (h : Sorted m) (k : K) (v : V) (x : K) :
    (emplace k v m).lookup x = (m.lookup x).or (if x = k then some v else none) := by
  induction m with
  | nil => simp [emplace, lookup_cons]
  | cons e m ih =>
    obtain ⟨k', v'⟩ := e
    obtain ⟨hhead, htail⟩ := List.pairwise_cons.1 h
    by_cases h1 : k < k'
    · rw [emplace, if_pos h1, lookup_cons]
      by_cases hx : x = k
      · subst hx
        -- The keys from here on are past `x`, so it is not among them.
        have hnone : ((k', v') :: m).lookup x = none := by
          refine lookup_eq_none fun hmem => ?_
          rcases List.mem_cons.1 hmem with rfl | hmem
          · exact Std.lt_irrefl h1
          · exact Std.lt_irrefl (Std.lt_trans h1 (hhead x hmem))
        rw [hnone, if_pos rfl, Option.none_or]
      · rw [if_neg hx, if_neg hx, Option.or_none]
    · by_cases h2 : k = k'
      · rw [emplace, if_neg h1, if_pos h2, lookup_cons, ← h2]
        by_cases hx : x = k
        · rw [if_pos hx, Option.some_or]
        · rw [if_neg hx, if_neg hx, Option.or_none]
      · rw [emplace, if_neg h1, if_neg h2, lookup_cons, lookup_cons, ih htail]
        by_cases hx : x = k'
        · rw [if_pos hx, if_pos hx, Option.some_or]
        · rw [if_neg hx, if_neg hx]

/-- Of the entries with a key, the first one stays. -/
theorem lookup_ofList [Std.Irrefl fun a b : K => a < b] [Std.Trichotomous fun a b : K => a < b]
    [Trans (fun a b : K => a < b) (fun a b : K => a < b) fun a b : K => a < b]
    (entries : List (K × V)) (x : K) : (ofList entries).lookup x = entries.lookup x := by
  induction entries using List.reverseRecOn with
  | nil => rfl
  | append_singleton entries last ih =>
    obtain ⟨k, v⟩ := last
    rw [ofList_concat, lookup_emplace (sorted_ofList entries), ih, List.lookup_append, lookup_cons,
      List.lookup_nil]

omit [LT K] [DecidableLT K] in
/-- What a key stands for when a function is applied to all values. -/
theorem lookup_map {W : Type*} (f : V → W) (m : List (K × V)) (x : K) :
    (m.map fun e => (e.1, f e.2)).lookup x = (m.lookup x).map f := by
  induction m with
  | nil => rfl
  | cons e m ih =>
    rw [List.map_cons, lookup_cons, lookup_cons, ih]
    split_ifs <;> rfl

omit [BEq K] [LawfulBEq K] in
/-- A function is applied to all values, the one that is added among them. -/
theorem map_emplace {W : Type*} (f : V → W) (k : K) (v : V) (m : List (K × V)) :
    (emplace k v m).map (fun e => (e.1, f e.2)) = emplace k (f v) (m.map fun e => (e.1, f e.2)) := by
  induction m with
  | nil => rfl
  | cons e m ih =>
    rw [emplace, List.map_cons, emplace, ← ih]
    split_ifs <;> rfl

omit [LT K] [DecidableLT K] in
/-- What a key stands for is the value of an entry. -/
theorem mem_of_lookup {m : List (K × V)} {x : K} {v : V} (h : m.lookup x = some v) : (x, v) ∈ m := by
  induction m with
  | nil => cases h
  | cons e m ih =>
    rw [lookup_cons] at h
    split_ifs at h with hx
    · cases h
      rw [hx]
      exact List.mem_cons_self
    · exact List.mem_cons_of_mem _ (ih h)

end SortedMap
