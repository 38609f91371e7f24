import Typhoon.Aggregator.Schedule
import Typhoon.Json.Access

/-!
# The text of a tick

`send_every` of `src/provider/aggregator.cpp` builds the JSON object of a tick member by member, and sends the
text that it is dumped to. There always is a text (`tickText_eq`), and `parse_tickBytes` says what it is
parsed to: a price that is not finite comes out as `null`.
-/

namespace Typhoon.Aggregator

open Json

variable {F Price : Type*} [PriceFloat Price F]

/-- The value that an iteration of `send_every` builds for its tick. -/
def tickJson (DEBUG : Bool) (tick : Message Price) : Except JsonError (Json F) := do
  let j ← assign (key ['T']) (.numberInteger (Int64.ofInt tick.T)) .null
  let j ← assign (key ['p']) (.numberFloat (PriceFloat.toDouble tick.p)) j
  let j ← assign (key ['i', 'd']) (.numberInteger (Int64.ofInt tick.id)) j
  if DEBUG then assign (key ['t']) (.numberInteger (Int64.ofInt tick.t)) j else return j

/-- The text that an iteration of `send_every` sends. -/
def tickText [NumberFloat F] (DEBUG : Bool) (tick : Message Price) : Except JsonError (List UInt8) :=
  match tickJson (F := F) DEBUG tick with
  | .ok j => dump j
  | .error e => .error e

/-- The bytes that are sent for a tick. -/
def tickBytes (F : Type*) [NumberFloat F] [PriceFloat Price F] (DEBUG : Bool) (tick : Message Price) :
    List UInt8 :=
  (tickText (F := F) DEBUG tick).toOption.getD []

/-- The members of a tick, in the order of their keys. -/
def tickMembers (DEBUG : Bool) (tick : Message Price) : Members F :=
  [(key ['T'], .numberInteger (Int64.ofInt tick.T)), (key ['i', 'd'], .numberInteger (Int64.ofInt tick.id)),
    (key ['p'], .numberFloat (PriceFloat.toDouble tick.p))] ++
  if DEBUG then [(key ['t'], .numberInteger (Int64.ofInt tick.t))] else []

/-- The assignments build the object with the members of a tick. -/
theorem tickJson_eq (DEBUG : Bool) (tick : Message Price) :
    tickJson (F := F) DEBUG tick = .ok (.object (tickMembers DEBUG tick)) := by
  cases DEBUG <;> rfl

/-- A tick is a well-formed value, with the number that its price is. -/
theorem wellFormed_tickMembers (DEBUG : Bool) (tick : Message Price) {floats : Set F}
    (hp : PriceFloat.toDouble tick.p ∈ floats) :
    WellFormed floats (.object (tickMembers DEBUG tick)) := by
  refine wellFormed_of_keys ([['T'], ['i', 'd'], ['p']] ++ if DEBUG then [['t']] else []) ?_ ?_ ?_ ?_
  · cases DEBUG <;> rfl
  · cases DEBUG <;> decide
  · cases DEBUG <;> decide
  · have hvalues : ∀ m ∈ ([(key ['T'], .numberInteger (Int64.ofInt tick.T)),
        (key ['i', 'd'], .numberInteger (Int64.ofInt tick.id)),
        (key ['p'], .numberFloat (PriceFloat.toDouble tick.p))] : Members F), m.2.WellFormed floats :=
      List.forall_mem_cons.2 ⟨.numberInteger _, List.forall_mem_cons.2 ⟨.numberInteger _,
        List.forall_mem_singleton.2 (.numberFloat hp)⟩⟩
    refine List.forall_mem_append.2 ⟨hvalues, ?_⟩
    cases DEBUG with
    | false => exact List.forall_mem_nil _
    | true => exact List.forall_mem_singleton.2 (.numberInteger _)

variable [NumberFloat F] [LawfulNumberFloat F]

/-- There always is a text, and it is parsed to what is read back of the tick. -/
theorem exists_tickText (DEBUG : Bool) (tick : Message Price) :
    ∃ text, tickText (F := F) DEBUG tick = .ok text ∧
      parse text = .ok (asRead (F := F) (.object (tickMembers DEBUG tick))) := by
  have hwell := wellFormed_tickMembers DEBUG tick (Set.mem_univ (PriceFloat.toDouble tick.p : F))
  obtain ⟨text, hdump, hparse⟩ := parse_dump hwell
  refine ⟨text, ?_, hparse⟩
  rw [tickText, tickJson_eq]
  exact hdump

/-- The bytes of a tick are those of its text. -/
theorem tickText_eq (DEBUG : Bool) (tick : Message Price) :
    tickText (F := F) DEBUG tick = .ok (tickBytes F DEBUG tick) := by
  obtain ⟨text, htext, -⟩ := exists_tickText (F := F) DEBUG tick
  rw [tickBytes, htext]
  rfl

/-- What the bytes are parsed to has `null` for a price that is not finite. -/
theorem parse_tickBytes (DEBUG : Bool) (tick : Message Price) :
    parse (tickBytes F DEBUG tick) = .ok (asRead (F := F) (.object (tickMembers DEBUG tick))) := by
  obtain ⟨text, htext, hparse⟩ := exists_tickText (F := F) DEBUG tick
  rw [tickBytes, htext]
  exact hparse

end Typhoon.Aggregator
