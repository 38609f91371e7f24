import Typhoon.Library.Keyed
import Typhoon.Aligner.Tick

/-!
# The aligner, one label at a time

The loop touches the entry of one label only, that of the message. `entryStep` is what it does to that
entry, and `alignStep_eq` shows that the loop body is the machine of `Library/Keyed.lean` over it. So
the entry of a label, and what is sent for it, are those of the messages with that label alone
(`lookup_tickMap`, `answersAt_eq`).
-/

namespace Typhoon.Aligner

variable {Price : Type*} [Zero Price]

/-- The tick after a message of its label. -/
def Tick.receive (DEBUG : Bool) (t : Tick Price) (jmsg : Message Price) : Tick Price :=
  if jmsg.id = 1 then
    { t with p1 := jmsg.p, p1_set := true, t1 := if DEBUG then some jmsg.t else t.t1 }
  else
    { t with p2 := jmsg.p, p2_set := true, t2 := if DEBUG then some jmsg.t else t.t2 }

/-- The loop body on the entry of the message's label. -/
def entryStep (DEBUG : Bool) (entry : Option (Tick Price)) (jmsg : Message Price) :
    Option (Tick Price) × Option (Record Price) :=
  let t := (entry.getD Tick.construct).receive DEBUG jmsg
  if t.p1_set && t.p2_set then (none, some (t.record DEBUG jmsg.T)) else (some t, none)

/-- The aligner as a program on one entry. -/
def keyed (DEBUG : Bool) : Keyed ℤ (Tick Price) (Message Price) (Option (Record Price)) where
  key := Message.T
  step := entryStep DEBUG

/-- `operator[]` finds the tick that was put there. -/
@[simp] theorem subscript_insert (m : TickMap Price) (ts : ℤ) (t : Tick Price) :
    subscript (m.insert ts t) ts = t := by
  simp [subscript]

/-- An assignment replaces the tick that was put there. -/
@[simp] theorem assign_insert (m : TickMap Price) (ts : ℤ) (t : Tick Price)
    (f : Tick Price → Tick Price) : assign (m.insert ts t) ts f = m.insert ts (f t) := by
  simp [assign]

/-- Emplacing does not change what an assignment starts from. -/
@[simp] theorem assign_emplace (m : TickMap Price) (ts : ℤ) (f : Tick Price → Tick Price) :
    assign (emplace m ts) ts f = m.insert ts (f (subscript m ts)) := by
  unfold emplace
  split
  · rfl
  · next h => simp [subscript, Finmap.lookup_eq_none.2 h]

/-- The assignments of the loop body set the tick that `Tick.receive` computes. -/
theorem assigns_eq (DEBUG : Bool) (m : TickMap Price) (jmsg : Message Price) :
    (if jmsg.id = 1 then
      let m := assign (emplace m jmsg.T) jmsg.T fun t => { t with p1 := jmsg.p }
      let m := assign m jmsg.T fun t => { t with p1_set := true }
      if DEBUG then assign m jmsg.T fun t => { t with t1 := some jmsg.t } else m
    else
      let m := assign (emplace m jmsg.T) jmsg.T fun t => { t with p2 := jmsg.p }
      let m := assign m jmsg.T fun t => { t with p2_set := true }
      if DEBUG then assign m jmsg.T fun t => { t with t2 := some jmsg.t } else m) =
      m.insert jmsg.T ((subscript m jmsg.T).receive DEBUG jmsg) := by
  unfold Tick.receive
  split
  · cases DEBUG <;> simp
  · cases DEBUG <;> simp

/-- The loop body is the keyed machine's step. -/
theorem alignStep_eq (DEBUG : Bool) (m : TickMap Price) (jmsg : Message Price) :
    alignStep DEBUG m jmsg = (keyed DEBUG).machine.step m jmsg := by
  unfold alignStep
  simp only [assigns_eq, subscript_insert, Finmap.lookup_insert]
  simp only [Keyed.machine, keyed, entryStep]
  rw [show (m.lookup jmsg.T).getD Tick.construct = subscript m jmsg.T from rfl]
  generalize (subscript m jmsg.T).receive DEBUG jmsg = t
  -- The assignments have inserted the tick, and it is erased again when both of its flags are set.
  cases h : t.p1_set && t.p2_set
  · rfl
  · rw [if_pos rfl, if_pos rfl, Keyed.erase_insert]
    rfl

/-- The loop is the keyed machine. -/
theorem aligner_eq (DEBUG : Bool) :
    (aligner DEBUG : Machine (TickMap Price) _ _) = (keyed DEBUG).machine := by
  unfold aligner
  congr 1
  funext m jmsg
  exact alignStep_eq DEBUG m jmsg

/-- The messages of a label. -/
def messagesAt (T : ℤ) (msgs : List (Message Price)) : List (Message Price) :=
  msgs.filter fun msg => msg.T = T

/-- What the loop sends for each message of a label. -/
def answersAt (DEBUG : Bool) (T : ℤ) (msgs : List (Message Price)) : List (Option (Record Price)) :=
  ((msgs.zip (answers DEBUG msgs)).filter fun p => p.1.T = T).map Prod.snd

/-- The entry of a label is that of its messages alone. -/
theorem lookup_tickMap (DEBUG : Bool) (msgs : List (Message Price)) (T : ℤ) :
    (tickMap DEBUG msgs).lookup T = (keyed DEBUG).entry.state none (messagesAt T msgs) := by
  unfold tickMap
  rw [aligner_eq, Keyed.lookup_state, Finmap.lookup_empty]
  rfl

/-- What is sent for the messages of a label is what they alone would have sent. -/
theorem answersAt_eq (DEBUG : Bool) (T : ℤ) (msgs : List (Message Price)) :
    answersAt DEBUG T msgs = (keyed DEBUG).entry.outputs none (messagesAt T msgs) := by
  have h := (keyed DEBUG).outputsAt_eq T (∅ : TickMap Price) msgs
  rw [Finmap.lookup_empty] at h
  rw [← show (keyed DEBUG).inputsAt T msgs = messagesAt T msgs from rfl, ← h]
  unfold answersAt answers
  rw [aligner_eq]
  rfl

/-- The records of a label are those sent for its messages. -/
theorem records_filter (DEBUG : Bool) (T : ℤ) (msgs : List (Message Price)) :
    (records DEBUG msgs).filter (fun r => r.T = T) = (answersAt DEBUG T msgs).reduceOption := by
  have h := (keyed DEBUG : Keyed ℤ (Tick Price) _ _).filter_reduceOption_outputs Record.T
    (fun e jmsg r hr => ?_) T ∅ msgs
  · unfold records answersAt answers
    rw [aligner_eq, h]
    rfl
  · simp only [keyed, entryStep] at hr
    split at hr
    · rw [← Option.some.inj hr]
      rfl
    · cases hr

end Typhoon.Aligner
