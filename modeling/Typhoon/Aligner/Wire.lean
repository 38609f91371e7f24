import Mathlib.Data.List.ReduceOption
import Typhoon.Aggregator.Wire
import Typhoon.Aligner.Tick
import Typhoon.Library.Throwing

/-!
# The aligner on the texts of messages

The loop of `main` in `src/provider/aligner.cpp` as it is: it parses the text of a message, reads its members,
and writes a record as a text again. Nothing catches what the JSON library throws, so the aligner ends
with the first message that it cannot read.

On the texts of the ticks of the aggregators it does what `alignStep` says, as long as their prices are
finite (`alignText_ticks`). A price that is not finite ends it (`alignText_after_not_finite`).
-/

namespace Typhoon.Aligner

open Json Aggregator

variable {F Price : Type*} [PriceFloat Price F]

/-- What the loop of `main` reads of a message. It only asks of the `id` if it is 1. -/
def readMessage (Price : Type*) [PriceFloat Price F] [NumberFloat F] (DEBUG : Bool) (jmsg : Json F) :
    Except JsonError (Message Price) :=
  match jmsg.subscript (key ['T']) with
  | .error e => .error e
  | .ok (T, jmsg) =>
    match T.getLongLong with
    | .error e => .error e
    | .ok ts =>
      match jmsg.subscript (key ['i', 'd']) with
      | .error e => .error e
      | .ok (id, jmsg) =>
        let id := if id.eq (.numberInteger 1) then 1 else 2
        match jmsg.subscript (key ['p']) with
        | .error e => .error e
        | .ok (p, jmsg) =>
          match p.getFloat Price with
          | .error e => .error e
          | .ok p =>
            if DEBUG then
              match jmsg.subscript (key ['t']) with
              | .error e => .error e
              | .ok (t, _) =>
                match t.getLongLong with
                | .error e => .error e
                | .ok t => .ok ⟨ts.toInt, id, p, t.toInt⟩
            else .ok ⟨ts.toInt, id, p, 0⟩

/-- The value that the loop builds for a record. A delay that is computed from an unassigned time is
`indeterminate`. -/
def recordJson (indeterminate : Int64) (r : Record Price) : Except JsonError (Json F) := do
  let j ← Json.assign (key ['T']) (.numberInteger (Int64.ofInt r.T)) .null
  let j ← Json.assign (key ['b', 'i', 'n', 'a', 'n', 'c', 'e'])
    (.numberFloat (PriceFloat.toDouble r.binance)) j
  let j ← Json.assign (key ['b', 'i', 't', 'm', 'e', 'x']) (.numberFloat (PriceFloat.toDouble r.bitmex)) j
  match r.delays with
  | none => return j
  | some d =>
    let j ← Json.assign (key ['b', 'i', 'n', '_', 'd', 'e', 'l', 'a', 'y'])
      (.numberInteger ((d.bin_delay.map Int64.ofInt).getD indeterminate)) j
    Json.assign (key ['b', 'i', 't', '_', 'd', 'e', 'l', 'a', 'y'])
      (.numberInteger ((d.bit_delay.map Int64.ofInt).getD indeterminate)) j

/-- The text that the loop sends for a record. -/
def recordText [NumberFloat F] (indeterminate : Int64) (r : Record Price) :
    Except JsonError (List UInt8) :=
  match recordJson (F := F) indeterminate r with
  | .ok j => dump j
  | .error e => .error e

/-- The bytes that are sent for a record. -/
def recordBytes (F : Type*) [NumberFloat F] [PriceFloat Price F] (indeterminate : Int64)
    (r : Record Price) : List UInt8 :=
  (recordText (F := F) indeterminate r).toOption.getD []

/-- The loop of `main` on the texts of messages: the text that it sends, if any, and how it goes on. -/
def alignText (F Price : Type*) [NumberFloat F] [PriceFloat Price F] [Zero Price] (DEBUG : Bool)
    (indeterminate : Int64) :
    Throwing (TickMap Price) (List UInt8) (Option (List UInt8)) JsonError where
  step tickMap smessage :=
    match parse (F := F) smessage with
    | .error e => (none, .error e)
    | .ok jmsg =>
      match readMessage Price DEBUG jmsg with
      | .error e => (none, .error e)
      | .ok jmsg =>
        match alignStep DEBUG tickMap jmsg with
        | (tickMap, none) => (none, .ok tickMap)
        | (tickMap, some r) =>
          match recordText (F := F) indeterminate r with
          | .error e => (none, .error e)
          | .ok msg => (some msg, .ok tickMap)

/-! ## Ticks -/

/-- A tick whose text gives it back: it is of one of the feeds, its times are `long long` values, and its
price is finite. -/
structure Sendable (F : Type*) [NumberFloat F] [PriceFloat Price F] (tick : Message Price) : Prop where
  id_eq : ∃ feed : Feed, tick.id = feed.id
  T_mem : tick.T ∈ Set.Ico (-2 ^ 63 : ℤ) (2 ^ 63)
  t_mem : tick.t ∈ Set.Ico (-2 ^ 63 : ℤ) (2 ^ 63)
  finite : NumberFloat.isfinite (PriceFloat.toDouble tick.p : F) = true

section

variable [NumberFloat F]

omit [PriceFloat Price F] in
/-- A `long long` value stays as it is. -/
theorem toInt_ofInt {n : ℤ} (h : n ∈ Set.Ico (-2 ^ 63 : ℤ) (2 ^ 63)) : (Int64.ofInt n).toInt = n :=
  Int64.toInt_ofInt_of_le h.1 h.2

/-- What the loop reads of a tick that has not been written. -/
theorem readMessage_tickMembers [LawfulPriceFloat Price F] (DEBUG : Bool) {tick : Message Price}
    (h : Sendable F tick) :
    readMessage (F := F) Price DEBUG (.object (tickMembers DEBUG tick)) =
      .ok { tick with t := if DEBUG then tick.t else 0 } := by
  have hread : readMessage (F := F) Price DEBUG (.object (tickMembers DEBUG tick)) =
      .ok ⟨(Int64.ofInt tick.T).toInt, if Int64.ofInt tick.id == 1 then 1 else 2,
        PriceFloat.toFloat (PriceFloat.toDouble tick.p),
        if DEBUG then (Int64.ofInt tick.t).toInt else 0⟩ := by
    cases DEBUG <;> rfl
  have hid : (if Int64.ofInt tick.id == 1 then 1 else 2 : ℤ) = tick.id := by
    obtain ⟨feed, hfeed⟩ := h.id_eq
    rw [hfeed]
    cases feed <;> decide
  rw [hread, toInt_ofInt h.T_mem, toInt_ofInt h.t_mem, hid,
    LawfulPriceFloat.toFloat_toDouble _ h.finite]

/-- What the loop reads of a value that is read back. -/
theorem readMessage_asRead [LawfulPriceFloat Price F] (DEBUG : Bool) {jmsg : Json F}
    (h : jmsg.WellFormed finite) : readMessage Price DEBUG (asRead jmsg) = readMessage Price DEBUG jmsg := by
  unfold readMessage
  rw [subscript_asRead _ h]
  cases hT : jmsg.subscript (key ['T']) with
  | error e => rfl
  | ok r =>
    obtain ⟨hwT, h⟩ := h.subscript ⟨['T'], rfl⟩ hT
    dsimp only [Except.map, Prod.map]
    rw [getLongLong_asRead hwT, subscript_asRead _ h]
    cases hid : r.2.subscript (key ['i', 'd']) with
    | error e => rfl
    | ok r =>
      obtain ⟨hwid, h⟩ := h.subscript ⟨['i', 'd'], rfl⟩ hid
      dsimp only [Except.map, Prod.map]
      rw [eq_integer_asRead 1 hwid, subscript_asRead _ h]
      cases hp : r.2.subscript (key ['p']) with
      | error e => rfl
      | ok r =>
        obtain ⟨hwp, h⟩ := h.subscript ⟨['p'], rfl⟩ hp
        dsimp only [Except.map, Prod.map]
        rw [getFloat_asRead hwp, subscript_asRead _ h]
        cases ht : r.2.subscript (key ['t']) with
        | error e => rfl
        | ok r =>
          obtain ⟨hwt, -⟩ := h.subscript ⟨['t'], rfl⟩ ht
          dsimp only [Except.map, Prod.map]
          rw [getLongLong_asRead hwt]

/-- A tick whose price is not finite cannot be read. -/
theorem readMessage_of_not_finite (DEBUG : Bool) {tick : Message Price}
    (h : NumberFloat.isfinite (PriceFloat.toDouble tick.p : F) = false) :
    readMessage (F := F) Price DEBUG (asRead (.object (tickMembers DEBUG tick))) =
      .error (.typeMustBe "number" "null") := by
  obtain ⟨rest, hread⟩ : ∃ rest, asRead (F := F) (.object (tickMembers DEBUG tick)) =
      .object ((key ['T'], asRead (.numberInteger (Int64.ofInt tick.T))) ::
        (key ['i', 'd'], asRead (.numberInteger (Int64.ofInt tick.id))) :: (key ['p'], .null) :: rest) := by
    have hp : asRead (.numberFloat (PriceFloat.toDouble tick.p : F)) = .null := by
      rw [asRead, h]
      rfl
    rw [asRead_object, tickMembers, List.map_append, List.map_cons, List.map_cons,
      List.map_cons, hp]
    exact ⟨_, rfl⟩
  have hT := getLongLong_asRead (F := F) (.numberInteger (Int64.ofInt tick.T))
  have hstep : readMessage (F := F) Price DEBUG (asRead (.object (tickMembers DEBUG tick))) =
      match (asRead (F := F) (.numberInteger (Int64.ofInt tick.T))).getLongLong with
      | .error e => .error e
      | .ok _ => .error (.typeMustBe "number" "null") := by
    rw [hread]
    rfl
  rw [hstep, hT]
  rfl

/-- The aligner of a build without `DEBUG` does not read the time of the trade. -/
theorem alignStep_time [Zero Price] (DEBUG : Bool) (tickMap : TickMap Price) (tick : Message Price) :
    alignStep DEBUG tickMap { tick with t := if DEBUG then tick.t else 0 } =
      alignStep DEBUG tickMap tick := by
  cases DEBUG <;> rfl

/-! ## Records -/

omit [NumberFloat F] in
/-- The members of a record, in the order of their keys. -/
def recordMembers (indeterminate : Int64) (r : Record Price) : Members F :=
  match r.delays with
  | none => [(key ['T'], .numberInteger (Int64.ofInt r.T)),
      (key ['b', 'i', 'n', 'a', 'n', 'c', 'e'], .numberFloat (PriceFloat.toDouble r.binance)),
      (key ['b', 'i', 't', 'm', 'e', 'x'], .numberFloat (PriceFloat.toDouble r.bitmex))]
  | some d => [(key ['T'], .numberInteger (Int64.ofInt r.T)),
      (key ['b', 'i', 'n', '_', 'd', 'e', 'l', 'a', 'y'],
        .numberInteger ((d.bin_delay.map Int64.ofInt).getD indeterminate)),
      (key ['b', 'i', 'n', 'a', 'n', 'c', 'e'], .numberFloat (PriceFloat.toDouble r.binance)),
      (key ['b', 'i', 't', '_', 'd', 'e', 'l', 'a', 'y'],
        .numberInteger ((d.bit_delay.map Int64.ofInt).getD indeterminate)),
      (key ['b', 'i', 't', 'm', 'e', 'x'], .numberFloat (PriceFloat.toDouble r.bitmex))]

omit [NumberFloat F] in
/-- The assignments build the object with the members of a record. -/
theorem recordJson_eq (indeterminate : Int64) (r : Record Price) :
    recordJson (F := F) indeterminate r = .ok (.object (recordMembers indeterminate r)) := by
  obtain ⟨T, binance, bitmex, delays⟩ := r
  cases delays <;> rfl

omit [NumberFloat F] in
/-- A record is a well-formed value. -/
theorem wellFormed_recordMembers (indeterminate : Int64) (r : Record Price) :
    WellFormed (F := F) Set.univ (.object (recordMembers indeterminate r)) := by
  obtain ⟨T, binance, bitmex, delays⟩ := r
  cases delays with
  | none =>
    refine wellFormed_of_keys [['T'], ['b', 'i', 'n', 'a', 'n', 'c', 'e'], ['b', 'i', 't', 'm', 'e', 'x']]
      rfl (by decide) (by decide) ?_
    exact List.forall_mem_cons.2 ⟨.numberInteger _, List.forall_mem_cons.2 ⟨.numberFloat (Set.mem_univ _),
      List.forall_mem_singleton.2 (.numberFloat (Set.mem_univ _))⟩⟩
  | some d =>
    refine wellFormed_of_keys [['T'], ['b', 'i', 'n', '_', 'd', 'e', 'l', 'a', 'y'],
      ['b', 'i', 'n', 'a', 'n', 'c', 'e'], ['b', 'i', 't', '_', 'd', 'e', 'l', 'a', 'y'],
      ['b', 'i', 't', 'm', 'e', 'x']] rfl (by decide) (by decide) ?_
    exact List.forall_mem_cons.2 ⟨.numberInteger _, List.forall_mem_cons.2 ⟨.numberInteger _,
      List.forall_mem_cons.2 ⟨.numberFloat (Set.mem_univ _), List.forall_mem_cons.2 ⟨.numberInteger _,
        List.forall_mem_singleton.2 (.numberFloat (Set.mem_univ _))⟩⟩⟩⟩

variable [LawfulNumberFloat F]

/-- There always is a text of a record, and it is parsed to what is read back of the record. -/
theorem exists_recordText (indeterminate : Int64) (r : Record Price) :
    ∃ text, recordText (F := F) indeterminate r = .ok text ∧
      parse text = .ok (asRead (F := F) (.object (recordMembers indeterminate r))) := by
  obtain ⟨text, hdump, hparse⟩ := parse_dump (wellFormed_recordMembers (F := F) indeterminate r)
  refine ⟨text, ?_, hparse⟩
  rw [recordText, recordJson_eq]
  exact hdump

/-- The bytes of a record are those of its text. -/
theorem recordText_eq (indeterminate : Int64) (r : Record Price) :
    recordText (F := F) indeterminate r = .ok (recordBytes F indeterminate r) := by
  obtain ⟨text, htext, -⟩ := exists_recordText (F := F) indeterminate r
  rw [recordBytes, htext]
  rfl

/-- What the bytes of a record are parsed to. -/
theorem parse_recordBytes (indeterminate : Int64) (r : Record Price) :
    parse (recordBytes F indeterminate r) =
      .ok (asRead (F := F) (.object (recordMembers indeterminate r))) := by
  obtain ⟨text, htext, hparse⟩ := exists_recordText (F := F) indeterminate r
  rw [recordBytes, htext]
  exact hparse

/-- What the texts of records are parsed to. -/
theorem map_parse_recordBytes (indeterminate : Int64) (rs : List (Record Price)) :
    (rs.map (recordBytes F indeterminate)).map parse =
      rs.map fun r => .ok (asRead (F := F) (.object (recordMembers indeterminate r))) := by
  rw [List.map_map]
  exact List.map_congr_left fun r _ => parse_recordBytes indeterminate r

/-! ## The loop -/

variable [Zero Price]

/-- The loop on the text of a tick that it can read. -/
theorem alignText_tickBytes [LawfulPriceFloat Price F] (DEBUG : Bool) (indeterminate : Int64)
    {tick : Message Price} (h : Sendable F tick) (tickMap : TickMap Price) :
    (alignText F Price DEBUG indeterminate).step tickMap (tickBytes F DEBUG tick) =
      ((alignStep DEBUG tickMap tick).2.map (recordBytes F indeterminate),
        .ok (alignStep DEBUG tickMap tick).1) := by
  have hread : readMessage Price DEBUG (asRead (F := F) (.object (tickMembers DEBUG tick))) =
      .ok { tick with t := if DEBUG then tick.t else 0 } := by
    rw [readMessage_asRead DEBUG (wellFormed_tickMembers DEBUG tick h.finite),
      readMessage_tickMembers DEBUG h]
  simp only [alignText, parse_tickBytes, hread, alignStep_time]
  obtain ⟨tickMap', answer⟩ := alignStep DEBUG tickMap tick
  cases answer with
  | none => rfl
  | some r =>
    simp only [recordText_eq]
    rfl

/-- The loop on the text of a tick whose price is not finite. -/
theorem alignText_of_not_finite (DEBUG : Bool) (indeterminate : Int64) {tick : Message Price}
    (h : NumberFloat.isfinite (PriceFloat.toDouble tick.p : F) = false) (tickMap : TickMap Price) :
    (alignText F Price DEBUG indeterminate).step tickMap (tickBytes F DEBUG tick) =
      (none, .error (.typeMustBe "number" "null")) := by
  simp only [alignText, parse_tickBytes, readMessage_of_not_finite DEBUG h]

section

variable [LawfulPriceFloat Price F] (DEBUG : Bool) (indeterminate : Int64) {ticks : List (Message Price)}
  (h : ∀ tick ∈ ticks, Sendable F tick)
include h

/-- The map after the texts of ticks that can be read. -/
theorem state_alignText :
    (alignText F Price DEBUG indeterminate).machine.state (.ok ∅) (ticks.map (tickBytes F DEBUG)) =
      .ok (tickMap DEBUG ticks) :=
  Throwing.state_encoded (M := aligner DEBUG)
    (fun tickMap tick htick => alignText_tickBytes DEBUG indeterminate (h tick htick) tickMap) ∅

/-- What is sent for the texts of ticks that can be read. -/
theorem run_alignText :
    (alignText F Price DEBUG indeterminate).run ∅ (ticks.map (tickBytes F DEBUG)) =
      (answers DEBUG ticks).map (Option.map (recordBytes F indeterminate)) :=
  Throwing.outputs_encoded (M := aligner DEBUG)
    (fun tickMap tick htick => alignText_tickBytes DEBUG indeterminate (h tick htick) tickMap) ∅

end

/-- On the texts of ticks that can be read, the aligner has the map and sends the texts of the records of
the ticks themselves, and these texts are parsed to the members of the records as they are read back. -/
theorem alignText_ticks [LawfulPriceFloat Price F] (DEBUG : Bool) (indeterminate : Int64)
    {ticks : List (Message Price)} (h : ∀ tick ∈ ticks, Sendable F tick) :
    (alignText F Price DEBUG indeterminate).machine.state (.ok ∅) (ticks.map (tickBytes F DEBUG)) =
        .ok (tickMap DEBUG ticks) ∧
      ((alignText F Price DEBUG indeterminate).run ∅ (ticks.map (tickBytes F DEBUG))).reduceOption =
        (records DEBUG ticks).map (recordBytes F indeterminate) ∧
      (((alignText F Price DEBUG indeterminate).run ∅
        (ticks.map (tickBytes F DEBUG))).reduceOption).map parse =
        (records DEBUG ticks).map
          fun r => .ok (asRead (F := F) (.object (recordMembers indeterminate r))) := by
  have hsent : ((alignText F Price DEBUG indeterminate).run ∅
      (ticks.map (tickBytes F DEBUG))).reduceOption =
      (records DEBUG ticks).map (recordBytes F indeterminate) := by
    rw [run_alignText DEBUG indeterminate h, List.reduceOption_map]
    rfl
  refine ⟨state_alignText DEBUG indeterminate h, hsent, ?_⟩
  rw [hsent, map_parse_recordBytes]

/-- Two ticks with one label. -/
theorem alignText_ticks_two :
    (alignText Sample Sample true 0).machine.state (.ok ∅)
        ([⟨1000, 1, Sample.half, 990⟩, ⟨1000, 2, Sample.zero, 980⟩].map (tickBytes Sample true)) =
        .ok (tickMap true [⟨1000, 1, Sample.half, 990⟩, ⟨1000, 2, Sample.zero, 980⟩]) ∧
      ((alignText Sample Sample true 0).run ∅
        ([⟨1000, 1, Sample.half, 990⟩, ⟨1000, 2, Sample.zero, 980⟩].map (tickBytes Sample true))).reduceOption =
        (records true [⟨1000, 1, Sample.half, 990⟩, ⟨1000, 2, Sample.zero, 980⟩]).map (recordBytes Sample 0) ∧
      (((alignText Sample Sample true 0).run ∅
        ([⟨1000, 1, Sample.half, 990⟩, ⟨1000, 2, Sample.zero, 980⟩].map
          (tickBytes Sample true))).reduceOption).map parse =
        (records true [⟨1000, 1, Sample.half, 990⟩, ⟨1000, 2, Sample.zero, 980⟩]).map
          fun r => .ok (asRead (F := Sample) (.object (recordMembers 0 r))) :=
  alignText_ticks true 0 (List.forall_mem_cons.2 ⟨⟨⟨.binance, rfl⟩, by decide, by decide, rfl⟩,
    List.forall_mem_singleton.2 ⟨⟨.bitmex, rfl⟩, by decide, by decide, rfl⟩⟩)

/-- A tick whose price is not finite ends the aligner: it throws, and sends nothing from then on. -/
theorem alignText_after_not_finite [LawfulPriceFloat Price F] (DEBUG : Bool) (indeterminate : Int64)
    {ticks : List (Message Price)} (h : ∀ tick ∈ ticks, Sendable F tick) {bad : Message Price}
    (hbad : NumberFloat.isfinite (PriceFloat.toDouble bad.p : F) = false) (messages : List (List UInt8)) :
    (alignText F Price DEBUG indeterminate).machine.state (.ok ∅)
        (ticks.map (tickBytes F DEBUG) ++ tickBytes F DEBUG bad :: messages) =
        .error (.typeMustBe "number" "null") ∧
      ((alignText F Price DEBUG indeterminate).run ∅
        (ticks.map (tickBytes F DEBUG) ++ tickBytes F DEBUG bad :: messages)).reduceOption =
        (records DEBUG ticks).map (recordBytes F indeterminate) := by
  have hstate := state_alignText DEBUG indeterminate h
  have hthrow := alignText_of_not_finite (F := F) DEBUG indeterminate hbad (tickMap DEBUG ticks)
  constructor
  · rw [Machine.state_append, hstate, Machine.state_cons, Throwing.machine]
    dsimp only
    rw [hthrow]
    exact Throwing.state_error _ _ _
  · rw [Throwing.run_append hstate, run_alignText DEBUG indeterminate h,
      Throwing.run_cons_of_error (by rw [hthrow]), hthrow, List.reduceOption_append,
      List.reduceOption_map, List.reduceOption_singleton]
    exact List.append_nil _

/-- A tick, one with an infinite price, and then the same label of the other feed. -/
theorem alignText_after_not_finite_one :
    (alignText Sample Sample true 0).machine.state (.ok ∅)
        ([⟨1000, 1, Sample.half, 990⟩].map (tickBytes Sample true) ++
          tickBytes Sample true ⟨2000, 1, Sample.infinity, 1990⟩ ::
            [tickBytes Sample true ⟨1000, 2, Sample.zero, 980⟩]) =
        .error (.typeMustBe "number" "null") ∧
      ((alignText Sample Sample true 0).run ∅
        ([⟨1000, 1, Sample.half, 990⟩].map (tickBytes Sample true) ++
          tickBytes Sample true ⟨2000, 1, Sample.infinity, 1990⟩ ::
            [tickBytes Sample true ⟨1000, 2, Sample.zero, 980⟩])).reduceOption =
        (records true [⟨1000, 1, Sample.half, 990⟩]).map (recordBytes Sample 0) :=
  alignText_after_not_finite true 0
    (List.forall_mem_singleton.2 ⟨⟨.binance, rfl⟩, by decide, by decide, rfl⟩) rfl _

end

end Typhoon.Aligner
