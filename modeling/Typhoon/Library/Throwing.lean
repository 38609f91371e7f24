import Typhoon.Library.Machine

/-!
# Programs that end with an exception

A `Throwing` program answers each input with an output, and either goes on or throws. Nothing catches the
exception, so the program does nothing from then on (`outputs_error`). `state_encoded` and `outputs_encoded`
compare such a program, on inputs that encode those of a machine, with the machine.
-/

/-- A program that goes on to a new state or throws an exception. -/
structure Throwing (σ ι ω ε : Type*) where
  /-- The output, and the next state or the exception, from a state and an input. -/
  step : σ → ι → ω × Except ε σ

namespace Throwing

variable {σ τ ι κ ω ω' ε : Type*}

/-- The program as a machine, with `none` for the outputs after an exception. -/
def machine (P : Throwing σ ι ω ε) : Machine (Except ε σ) ι (Option ω) where
  step
    | .ok s, i => ((P.step s i).2, some (P.step s i).1)
    | .error e, _ => (.error e, none)

/-- The outputs of a run. -/
def run (P : Throwing σ ι ω ε) (s : σ) (is : List ι) : List ω :=
  (P.machine.outputs (.ok s) is).reduceOption

/-- An exception is final. -/
theorem state_error (P : Throwing σ ι ω ε) (e : ε) (is : List ι) :
    P.machine.state (.error e) is = .error e := by
  induction is with
  | nil => rfl
  | cons i is ih => exact ih

/-- There are no outputs after an exception. -/
theorem outputs_error (P : Throwing σ ι ω ε) (e : ε) (is : List ι) :
    (P.machine.outputs (.error e) is).reduceOption = [] := by
  induction is with
  | nil => rfl
  | cons i is ih => exact ih

/-- The outputs of a run, when the first step goes on. -/
theorem run_cons_of_ok {P : Throwing σ ι ω ε} {s s' : σ} {i : ι} (h : (P.step s i).2 = .ok s')
    (is : List ι) : P.run s (i :: is) = (P.step s i).1 :: P.run s' is := by
  show (P.step s i).1 :: (P.machine.outputs (P.step s i).2 is).reduceOption = _
  rw [h]
  rfl

/-- The outputs of a run, when the first step throws. -/
theorem run_cons_of_error {P : Throwing σ ι ω ε} {s : σ} {i : ι} {e : ε} (h : (P.step s i).2 = .error e)
    (is : List ι) : P.run s (i :: is) = [(P.step s i).1] := by
  show (P.step s i).1 :: (P.machine.outputs (P.step s i).2 is).reduceOption = _
  rw [h, outputs_error]

/-- A run that goes on after a list of inputs. -/
theorem run_append {P : Throwing σ ι ω ε} {s s' : σ} {is : List ι}
    (h : P.machine.state (.ok s) is = .ok s') (js : List ι) :
    P.run s (is ++ js) = P.run s is ++ P.run s' js := by
  induction is generalizing s with
  | nil =>
    cases h
    rfl
  | cons i is ih =>
    have hrest : P.machine.state (P.step s i).2 is = .ok s' := h
    cases hi : (P.step s i).2 with
    | ok m =>
      rw [hi] at hrest
      rw [List.cons_append, run_cons_of_ok hi, run_cons_of_ok hi, ih hrest, List.cons_append]
    | error e =>
      rw [hi, state_error] at hrest
      cases hrest

section Encoded

variable {P : Throwing σ ι ω ε} {M : Machine σ κ ω'} {encode : κ → ι} {answer : ω' → ω} {is : List κ}

/-- Where every input is the encoding of one of a machine's and answered as the machine does, the program
is in the state of the machine. -/
theorem state_encoded (hstep : ∀ s, ∀ i ∈ is,
      P.step s (encode i) = (answer (M.step s i).2, .ok (M.step s i).1)) (s : σ) :
    P.machine.state (.ok s) (is.map encode) = .ok (M.state s is) := by
  induction is generalizing s with
  | nil => rfl
  | cons i is ih =>
    obtain ⟨hi, his⟩ := forall_and.1 fun s => List.forall_mem_cons.1 (hstep s)
    rw [List.map_cons, Machine.state_cons, Machine.state_cons, ← ih his]
    show P.machine.state (P.step s (encode i)).2 _ = _
    rw [hi s]

/-- Where every input is the encoding of one of a machine's and answered as the machine does, the program
has the outputs of the machine. -/
theorem outputs_encoded (hstep : ∀ s, ∀ i ∈ is,
      P.step s (encode i) = (answer (M.step s i).2, .ok (M.step s i).1)) (s : σ) :
    P.run s (is.map encode) = (M.outputs s is).map answer := by
  induction is generalizing s with
  | nil => rfl
  | cons i is ih =>
    obtain ⟨hi, his⟩ := forall_and.1 fun s => List.forall_mem_cons.1 (hstep s)
    have hok : (P.step s (encode i)).2 = .ok (M.step s i).1 := by rw [hi s]
    rw [List.map_cons, run_cons_of_ok hok, ih his, hi s, Machine.outputs_cons, List.map_cons]

end Encoded

end Throwing
