import Mathlib.Algebra.Notation.Defs
import Mathlib.Data.Finmap
import Typhoon.Library.Machine
import Typhoon.Message

/-!
# The aligner

The map of ticks and the loop of `main` of `src/provider/aligner.cpp`. The loop keeps a tick for each
label of which only one feed has arrived. Each message sets its feed's half of the tick of its label,
and when both halves are set the loop sends them as one record and erases the tick.

`tickMap` is a global `std::map`, here a finite map that the loop passes on. `emplace` and `assign` are
what the loop does to it. Prices are of any type with a zero, the `0.0` of `tick()`. The `#if`s on
`DEBUG` are a Boolean parameter.
-/

namespace Typhoon.Aligner

variable {Price : Type*}

/-- `struct tick`. Its constructor leaves `t1` and `t2`, which a `DEBUG` build adds, unassigned: they
are `none` until a message sets them. -/
structure Tick (Price : Type*) where
  p1 : Price
  p2 : Price
  p1_set : Bool
  p2_set : Bool
  t1 : Option ℤ
  t2 : Option ℤ
  deriving DecidableEq

/-- `tick()`. -/
def Tick.construct [Zero Price] : Tick Price := ⟨0, 0, false, false, none, none⟩

/-- The delays that a `DEBUG` build adds to a record, `none` where they are computed from an unassigned
time. -/
structure Delays where
  bin_delay : Option ℤ
  bit_delay : Option ℤ
  deriving DecidableEq

/-- The record that is sent on for a label. -/
structure Record (Price : Type*) where
  T : ℤ
  binance : Price
  bitmex : Price
  delays : Option Delays
  deriving DecidableEq

/-- The type of `tickMap`. -/
abbrev TickMap (Price : Type*) := Finmap fun _ : ℤ => Tick Price

/-- `tickMap.emplace(ts, tick())`: add an entry, unless there is one. -/
def emplace [Zero Price] (tickMap : TickMap Price) (ts : ℤ) : TickMap Price :=
  if ts ∈ tickMap then tickMap else tickMap.insert ts Tick.construct

/-- `tickMap[ts]`, which adds `tick()` where there is no entry. -/
def subscript [Zero Price] (tickMap : TickMap Price) (ts : ℤ) : Tick Price :=
  (tickMap.lookup ts).getD Tick.construct

/-- An assignment to a field of `tickMap[ts]`. -/
def assign [Zero Price] (tickMap : TickMap Price) (ts : ℤ) (f : Tick Price → Tick Price) :
    TickMap Price :=
  tickMap.insert ts (f (subscript tickMap ts))

/-- The record of a tick, as the loop sends it. -/
def Tick.record (DEBUG : Bool) (ts : ℤ) (it : Tick Price) : Record Price where
  T := ts
  binance := it.p1
  bitmex := it.p2
  delays := if DEBUG then some ⟨it.t1.map (ts - ·), it.t2.map (ts - ·)⟩ else none

/-- The loop body of `main` on a received message: the map after it, and the record that it sends, if
any. -/
def alignStep [Zero Price] (DEBUG : Bool) (tickMap : TickMap Price) (jmsg : Message Price) :
    TickMap Price × Option (Record Price) :=
  let ts := jmsg.T
  let tickMap := emplace tickMap ts
  let tickMap :=
    if jmsg.id = 1 then
      let tickMap := assign tickMap ts fun t => { t with p1 := jmsg.p }
      let tickMap := assign tickMap ts fun t => { t with p1_set := true }
      if DEBUG then assign tickMap ts fun t => { t with t1 := some jmsg.t } else tickMap
    else
      let tickMap := assign tickMap ts fun t => { t with p2 := jmsg.p }
      let tickMap := assign tickMap ts fun t => { t with p2_set := true }
      if DEBUG then assign tickMap ts fun t => { t with t2 := some jmsg.t } else tickMap
  -- Both feeds have arrived: `find` the entry, send its record and erase it.
  if (subscript tickMap ts).p1_set && (subscript tickMap ts).p2_set then
    match tickMap.lookup ts with
    | some it => (tickMap.erase ts, some (it.record DEBUG ts))
    | none => (tickMap, none)
  else (tickMap, none)

/-- The loop of `main`. -/
def aligner [Zero Price] (DEBUG : Bool) :
    Machine (TickMap Price) (Message Price) (Option (Record Price)) where
  step := alignStep DEBUG

/-- `tickMap` after a list of messages. -/
def tickMap [Zero Price] (DEBUG : Bool) (msgs : List (Message Price)) : TickMap Price :=
  (aligner DEBUG).state ∅ msgs

/-- What the loop sends for each of a list of messages, `none` where it sends nothing. -/
def answers [Zero Price] (DEBUG : Bool) (msgs : List (Message Price)) :
    List (Option (Record Price)) :=
  (aligner DEBUG).outputs ∅ msgs

/-- The records that the loop sends for a list of messages, in order. -/
def records [Zero Price] (DEBUG : Bool) (msgs : List (Message Price)) : List (Record Price) :=
  (answers DEBUG msgs).reduceOption

end Typhoon.Aligner
