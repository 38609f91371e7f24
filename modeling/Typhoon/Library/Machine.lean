import Mathlib.Data.List.Basic
import Mathlib.Data.List.Infix
import Mathlib.Tactic.Common

/-!
# Machines and their runs

Two kinds of machine. A `Machine` takes every input and answers each one; a `Guarded` machine
refuses the inputs whose guard fails. Both are run on a list of inputs. The rules here reduce a
statement about a whole run to one about a step: `Machine.invariant` carries a property of a state
along a run, `Machine.simulation` a relation between two machines along their runs, and
`Guarded.run_induction` a property of a state together with the history that led to it.
-/

/-- A machine that answers each input with an output. -/
structure Machine (σ ι ω : Type*) where
  /-- The next state and the output, from a state and an input. -/
  step : σ → ι → σ × ω

namespace Machine

variable {σ τ ι ω ω' : Type*}

/-- The state after a list of inputs. -/
def state (M : Machine σ ι ω) (s : σ) (is : List ι) : σ :=
  is.foldl (fun s i => (M.step s i).1) s

/-- The outputs along a list of inputs, one for each input. -/
def outputs (M : Machine σ ι ω) (s : σ) : List ι → List ω
  | [] => []
  | i :: is => (M.step s i).2 :: M.outputs (M.step s i).1 is

/-- The empty run changes nothing. -/
@[simp] theorem state_nil (M : Machine σ ι ω) (s : σ) : M.state s [] = s := rfl

/-- The state after a run is the state after its first step and the rest. -/
@[simp] theorem state_cons (M : Machine σ ι ω) (s : σ) (i : ι) (is : List ι) :
    M.state s (i :: is) = M.state (M.step s i).1 is := rfl

/-- The empty run has no outputs. -/
@[simp] theorem outputs_nil (M : Machine σ ι ω) (s : σ) : M.outputs s [] = [] := rfl

/-- The outputs of a run are that of its first step and those of the rest. -/
@[simp] theorem outputs_cons (M : Machine σ ι ω) (s : σ) (i : ι) (is : List ι) :
    M.outputs s (i :: is) = (M.step s i).2 :: M.outputs (M.step s i).1 is := rfl

/-- A run over two lists is the run over the first, then the run over the second. -/
theorem state_append (M : Machine σ ι ω) (s : σ) (is js : List ι) :
    M.state s (is ++ js) = M.state (M.state s is) js :=
  List.foldl_append

/-- One more input takes one more step. -/
theorem state_concat (M : Machine σ ι ω) (s : σ) (is : List ι) (i : ι) :
    M.state s (is ++ [i]) = (M.step (M.state s is) i).1 := by
  rw [state_append, state_cons, state_nil]

/-- One more input adds one more output. -/
theorem outputs_concat (M : Machine σ ι ω) (s : σ) (is : List ι) (i : ι) :
    M.outputs s (is ++ [i]) = M.outputs s is ++ [(M.step (M.state s is) i).2] := by
  induction is generalizing s with
  | nil => rfl
  | cons j js ih => rw [List.cons_append, outputs_cons, ih, outputs_cons, List.cons_append, state_cons]

/-- A relation between the states of two machines that each step keeps holds after every run. -/
theorem simulation (M : Machine σ ι ω) (N : Machine τ ι ω') (R : σ → τ → Prop)
    (hstep : ∀ s t i, R s t → R (M.step s i).1 (N.step t i).1) (s : σ) (t : τ) (h : R s t)
    (is : List ι) : R (M.state s is) (N.state t is) := by
  induction is generalizing s t with
  | nil => exact h
  | cons i is ih => exact ih _ _ (hstep s t i h)

/-- A property of states that each step keeps holds after every run. -/
theorem invariant (M : Machine σ ι ω) {P : σ → Prop} (hstep : ∀ s i, P s → P (M.step s i).1) {s : σ}
    (h : P s) (is : List ι) : P (M.state s is) := by
  induction is generalizing s with
  | nil => exact h
  | cons i is ih => exact ih (hstep s i h)

end Machine

/-- A machine whose steps are guarded: `none` where an input is not enabled. -/
structure Guarded (σ ι : Type*) where
  /-- The next state, where the input is enabled. -/
  step : σ → ι → Option σ

namespace Guarded

variable {σ ι : Type*}

/-- The state after a list of inputs, where each of them is enabled in its turn. -/
def run (G : Guarded σ ι) (s : σ) : List ι → Option σ
  | [] => some s
  | i :: is => (G.step s i).bind fun s' => G.run s' is

/-- The empty run is always enabled. -/
@[simp] theorem run_nil (G : Guarded σ ι) (s : σ) : G.run s [] = some s := rfl

/-- A run goes on from the state after its first step. -/
theorem run_cons_of_step {G : Guarded σ ι} {s s' : σ} {i : ι} (h : G.step s i = some s')
    (is : List ι) : G.run s (i :: is) = G.run s' is := by
  rw [run, h, Option.bind_some]

/-- A run over two lists passes through a state between them. -/
theorem run_append_eq_some {G : Guarded σ ι} {s s' : σ} {is js : List ι} :
    G.run s (is ++ js) = some s' ↔ ∃ m, G.run s is = some m ∧ G.run m js = some s' := by
  induction is generalizing s with
  | nil => simp
  | cons i is ih =>
    simp only [List.cons_append, run, Option.bind_eq_some_iff, ih]
    constructor
    · rintro ⟨a, ha, m, hm, hs'⟩
      exact ⟨m, ⟨a, ha, hm⟩, hs'⟩
    · rintro ⟨m, ⟨a, ha, hm⟩, hs'⟩
      exact ⟨a, ha, m, hm, hs'⟩

/-- A run with one more input takes one more step. -/
theorem run_concat_eq_some {G : Guarded σ ι} {s s' : σ} {is : List ι} {i : ι} :
    G.run s (is ++ [i]) = some s' ↔ ∃ m, G.run s is = some m ∧ G.step m i = some s' := by
  rw [run_append_eq_some]
  simp only [run, Option.bind_eq_some_iff, Option.some.injEq, exists_eq_right]

/-- A run has run each of its prefixes. -/
theorem run_isPrefix {G : Guarded σ ι} {s s' : σ} {is js : List ι} (hp : is <+: js)
    (h : G.run s js = some s') : ∃ m, G.run s is = some m := by
  obtain ⟨ks, rfl⟩ := hp
  obtain ⟨m, hm, -⟩ := run_append_eq_some.1 h
  exact ⟨m, hm⟩

/-- A property of a history and the state it leads to, which holds of the empty history and which
each step keeps, holds of every run. -/
theorem run_induction {G : Guarded σ ι} {s₀ : σ} {P : List ι → σ → Prop} (h0 : P [] s₀)
    (hstep : ∀ is s i s', G.run s₀ is = some s → P is s → G.step s i = some s' → P (is ++ [i]) s')
    {is : List ι} {s : σ} (h : G.run s₀ is = some s) : P is s := by
  induction is using List.reverseRecOn generalizing s with
  | nil =>
    obtain rfl : s₀ = s := by simpa using h
    exact h0
  | append_singleton is i ih =>
    obtain ⟨m, hm, hs⟩ := run_concat_eq_some.1 h
    exact hstep is m i s hm (ih hm) hs

end Guarded
