import Mathlib.Data.Finmap
import Mathlib.Data.List.ReduceOption
import Typhoon.Library.Machine

/-!
# Machines over a keyed store

Many programs keep a finite map and let each input touch the entry of one key only. `Keyed` gives
such a program by what it does to one entry, and `Keyed.machine` is the program on the whole map.
Its runs decompose: at each key, the entry and the outputs are those of the one-entry machine
`Keyed.entry` on the inputs of that key alone (`Keyed.lookup_state`, `Keyed.outputsAt_eq`). So no
input of another key can be seen there, in whatever order the inputs of different keys arrive.
-/

/-- A program on one entry of a keyed store. -/
structure Keyed (κ σ ι ω : Type*) where
  /-- The key that an input touches. -/
  key : ι → κ
  /-- The entry after an input, `none` when it is absent, and the output. -/
  step : Option σ → ι → Option σ × ω

namespace Keyed

variable {κ σ ι ω : Type*} [DecidableEq κ]

/-- The machine of a single entry. -/
def entry (K : Keyed κ σ ι ω) : Machine (Option σ) ι ω := ⟨K.step⟩

/-- Set the entry of a key, or remove it. -/
def store (m : Finmap fun _ : κ => σ) (k : κ) : Option σ → Finmap fun _ : κ => σ
  | some s => m.insert k s
  | none => m.erase k

/-- The machine on the whole store. -/
def machine (K : Keyed κ σ ι ω) : Machine (Finmap fun _ : κ => σ) ι ω where
  step m i :=
    let r := K.step (m.lookup (K.key i)) i
    (store m (K.key i) r.1, r.2)

/-- The inputs of a key. -/
def inputsAt (K : Keyed κ σ ι ω) (k : κ) (is : List ι) : List ι := is.filter fun i => K.key i = k

/-- The outputs that answer the inputs of a key. -/
def outputsAt (K : Keyed κ σ ι ω) (k : κ) (m : Finmap fun _ : κ => σ) (is : List ι) : List ω :=
  ((is.zip (K.machine.outputs m is)).filter fun p => K.key p.1 = k).map Prod.snd

/-- A stored entry is found at its key, and no other key sees it. -/
theorem lookup_store (m : Finmap fun _ : κ => σ) (k k' : κ) (e : Option σ) :
    (store m k e).lookup k' = if k = k' then e else m.lookup k' := by
  by_cases h : k = k'
  · subst h
    cases e <;> simp [store]
  · rw [if_neg h]
    cases e with
    | none => exact Finmap.lookup_erase_ne (Ne.symm h)
    | some s => exact Finmap.lookup_insert_of_ne _ (Ne.symm h)

/-- Erasing an entry forgets an earlier insertion. -/
theorem erase_insert (m : Finmap fun _ : κ => σ) (k : κ) (s : σ) :
    (m.insert k s).erase k = m.erase k := by
  apply Finmap.ext_lookup
  intro k'
  by_cases h : k' = k
  · subst h
    rw [Finmap.lookup_erase, Finmap.lookup_erase]
  · rw [Finmap.lookup_erase_ne h, Finmap.lookup_erase_ne h, Finmap.lookup_insert_of_ne _ h]

/-- The entry of a key after a run is that of the one-entry machine on the inputs of the key. -/
theorem lookup_state (K : Keyed κ σ ι ω) (k : κ) (m : Finmap fun _ : κ => σ) (is : List ι) :
    (K.machine.state m is).lookup k = K.entry.state (m.lookup k) (K.inputsAt k is) := by
  induction is generalizing m with
  | nil => rfl
  | cons i is ih =>
    rw [Machine.state_cons, ih]
    by_cases h : K.key i = k
    · subst h
      simp [inputsAt, machine, entry, lookup_store]
    · simp [inputsAt, machine, h, lookup_store]

/-- An input of the key adds its output. -/
theorem outputsAt_cons_of_eq (K : Keyed κ σ ι ω) {k : κ} (m : Finmap fun _ : κ => σ) {i : ι}
    (h : K.key i = k) (is : List ι) :
    K.outputsAt k m (i :: is) =
      (K.machine.step m i).2 :: K.outputsAt k (K.machine.step m i).1 is := by
  unfold outputsAt
  rw [Machine.outputs_cons, List.zip_cons_cons, List.filter_cons_of_pos (by simpa using h),
    List.map_cons]

/-- An input of another key adds nothing. -/
theorem outputsAt_cons_of_ne (K : Keyed κ σ ι ω) {k : κ} (m : Finmap fun _ : κ => σ) {i : ι}
    (h : K.key i ≠ k) (is : List ι) :
    K.outputsAt k m (i :: is) = K.outputsAt k (K.machine.step m i).1 is := by
  unfold outputsAt
  rw [Machine.outputs_cons, List.zip_cons_cons, List.filter_cons_of_neg (by simpa using h)]

/-- The outputs of a key along a run are those of the one-entry machine on the inputs of the
key. -/
theorem outputsAt_eq (K : Keyed κ σ ι ω) (k : κ) (m : Finmap fun _ : κ => σ) (is : List ι) :
    K.outputsAt k m is = K.entry.outputs (m.lookup k) (K.inputsAt k is) := by
  induction is generalizing m with
  | nil => rfl
  | cons i is ih =>
    by_cases h : K.key i = k
    · rw [K.outputsAt_cons_of_eq m h, ih]
      subst h
      simp [inputsAt, machine, entry, lookup_store]
    · rw [K.outputsAt_cons_of_ne m h, ih]
      simp [inputsAt, machine, h, lookup_store]

/-- Where every output carries the key of its input as its tag, the outputs with a tag are those
that answer the inputs of that key. -/
theorem filter_reduceOption_outputs (K : Keyed κ σ ι (Option ω)) (tag : ω → κ)
    (htag : ∀ e i o, (K.step e i).2 = some o → tag o = K.key i) (k : κ)
    (m : Finmap fun _ : κ => σ) (is : List ι) :
    (K.machine.outputs m is).reduceOption.filter (fun o => tag o = k) =
      (K.outputsAt k m is).reduceOption := by
  induction is generalizing m with
  | nil => rfl
  | cons i is ih =>
    rw [Machine.outputs_cons]
    -- An input that is answered adds its output on both sides, or on neither, by its tag.
    have hout : (K.machine.step m i).2 = (K.step (m.lookup (K.key i)) i).2 := rfl
    cases ho : (K.machine.step m i).2 with
    | none =>
      rw [List.reduceOption_cons_of_none, ih]
      by_cases h : K.key i = k
      · rw [K.outputsAt_cons_of_eq m h, ho, List.reduceOption_cons_of_none]
      · rw [K.outputsAt_cons_of_ne m h]
    | some o =>
      have ht : tag o = K.key i := htag _ _ _ (hout.symm.trans ho)
      rw [List.reduceOption_cons_of_some]
      by_cases h : K.key i = k
      · rw [List.filter_cons_of_pos (by simpa [ht] using h), ih, K.outputsAt_cons_of_eq m h, ho,
          List.reduceOption_cons_of_some]
      · rw [List.filter_cons_of_neg (by simpa [ht] using h), ih, K.outputsAt_cons_of_ne m h]

end Keyed
