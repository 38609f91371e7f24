import Typhoon.Aligner.Wire
import Typhoon.Pipeline.Law

/-!
# The pipeline on texts

The pipeline of `Model.lean`, where the two aggregators send the texts of their ticks and the aligner
parses them. As long as all prices are finite and all times are `long long` values, every run is one of the
pipeline of messages, with the same steps (`textPipeline_refines`). So no exception ends the aligner, and the
texts that it sends are those of the records that `Law` tells of (`textPipeline_law`).
-/

namespace Typhoon.Pipeline

open Aggregator Aligner Json

/-- The pipeline on texts. -/
def textPipeline (F Price : Type*) [NumberFloat F] [PriceFloat Price F] [Zero Price] (DEBUG : Bool)
    (indeterminate : Int64) (i₁ i₂ : ℤ) (garbage₁ garbage₂ : ℤ → ℤ × Price) :
    Fanin (Process Price) (Event Price) (Process Price) (Event Price) (List UInt8)
      (Except JsonError (TickMap Price)) (Option (Option (List UInt8))) :=
  (pipeline DEBUG i₁ i₂ garbage₁ garbage₂).encoded (tickBytes F DEBUG)
    (alignText F Price DEBUG indeterminate).machine

/-- A state of the pipeline on texts. -/
abbrev TextState (Price : Type*) :=
  Fanin.State (Process Price) (Process Price) (List UInt8) (Except JsonError (TickMap Price))
    (Option (Option (List UInt8)))

variable {Price : Type*}

/-- The state of the pipeline on texts that a state of the pipeline of messages stands for. -/
def inTexts (F : Type*) [NumberFloat F] [PriceFloat Price F] (DEBUG : Bool) (indeterminate : Int64) :
    State Price → TextState Price :=
  Fanin.State.encoded (tickBytes F DEBUG) .ok fun answer =>
    some (answer.map (recordBytes F indeterminate))

/-- The texts that the aligner has sent. -/
def sentTexts (u : TextState Price) : List (List UInt8) := u.outputs.reduceOption.reduceOption

/-- A state in which all ticks sent can be read. -/
structure AllSendable (F : Type*) [NumberFloat F] [PriceFloat Price F]
    (garbage₁ garbage₂ : ℤ → ℤ × Price) (u : TextState Price) : Prop where
  binance : ∀ x ∈ u.left.sent, Sendable F (wire .binance garbage₁ x)
  bitmex : ∀ x ∈ u.right.sent, Sendable F (wire .bitmex garbage₂ x)

variable {F : Type*} [NumberFloat F] [PriceFloat Price F] [Zero Price] {DEBUG : Bool}
  {indeterminate : Int64} {size n₁ n₂ i₁ i₂ : ℤ} {garbage₁ garbage₂ : ℤ → ℤ × Price} {s₀ : State Price}
  {u : TextState Price} {evs : List (Step Price)}

omit [Zero Price] in
/-- The texts sent in a state are those of its records. -/
theorem sentTexts_inTexts (s : State Price) :
    sentTexts (inTexts F DEBUG indeterminate s) = (sentRecords s).map (recordBytes F indeterminate) := by
  show ((s.outputs.map fun answer =>
    some (answer.map (recordBytes F indeterminate))).reduceOption).reduceOption = _
  unfold sentRecords List.reduceOption
  rw [List.filterMap_map, List.filterMap_filterMap, List.map_filterMap]
  rfl

variable [LawfulNumberFloat F] [LawfulPriceFloat Price F]

/-- A run on texts, in which all ticks sent can be read, is one of the pipeline of messages. -/
theorem run_inTexts (h0 : start size n₁ n₂ i₁ i₂ = some s₀)
    (hrun : (textPipeline F Price DEBUG indeterminate i₁ i₂ garbage₁ garbage₂).machine.run
      (inTexts F DEBUG indeterminate s₀) evs = some u) (hsend : AllSendable F garbage₁ garbage₂ u) :
    ∃ s, (pipeline DEBUG i₁ i₂ garbage₁ garbage₂).machine.run s₀ evs = some s ∧
      u = inTexts F DEBUG indeterminate s := by
  have hstep : ∀ (tickMap : TickMap Price) tick, Sendable F tick →
      (alignText F Price DEBUG indeterminate).machine.step (.ok tickMap) (tickBytes F DEBUG tick) =
        (.ok ((aligner DEBUG).step tickMap tick).1,
          some (((aligner DEBUG).step tickMap tick).2.map (recordBytes F indeterminate))) := by
    intro tickMap tick htick
    simp only [Throwing.machine, alignText_tickBytes DEBUG indeterminate htick]
    rfl
  exact Fanin.run_encoded hstep (fun _ _ _ h => (sent_isPrefix h).map _)
    (fun _ _ _ h => (sent_isPrefix h).map _) (delivered_start h0) hrun
    (List.forall_mem_map.2 hsend.binance) (List.forall_mem_map.2 hsend.bitmex)

/-- Every run on texts, in which all ticks sent can be read, is one of the pipeline of messages, and the
aligner sends the texts of its records, which are parsed to their members as they are read back. -/
theorem textPipeline_refines (h0 : start size n₁ n₂ i₁ i₂ = some s₀)
    (hrun : (textPipeline F Price DEBUG indeterminate i₁ i₂ garbage₁ garbage₂).machine.run
      (inTexts F DEBUG indeterminate s₀) evs = some u) (hsend : AllSendable F garbage₁ garbage₂ u) :
    ∃ s, (pipeline DEBUG i₁ i₂ garbage₁ garbage₂).machine.run s₀ evs = some s ∧
      u = inTexts F DEBUG indeterminate s ∧
      sentTexts u = (sentRecords s).map (recordBytes F indeterminate) ∧
      (sentTexts u).map parse = (sentRecords s).map
        fun r => .ok (asRead (F := F) (.object (recordMembers indeterminate r))) := by
  obtain ⟨s, hs, rfl⟩ := run_inTexts h0 hrun hsend
  refine ⟨s, hs, rfl, sentTexts_inTexts s, ?_⟩
  rw [sentTexts_inTexts, map_parse_recordBytes]

/-- Two aggregators started at 0, once both have sent their first ticks and these have arrived. -/
theorem textPipeline_refines_first :
    ∃ (s₀ : State Sample) (u : TextState Sample), start 1000 0 0 1000 1000 = some s₀ ∧
      (textPipeline Sample Sample true 0 1000 1000 (fun T => (T, .half)) fun T => (T, .zero)).machine.run
        (inTexts Sample true 0 s₀)
        [.left .exec, .left .send, .right .exec, .right .send, .receiveRight, .receiveLeft] = some u ∧
      ∃ s, (pipeline true 1000 1000 (fun T => (T, Sample.half)) fun T => (T, .zero)).machine.run s₀
        [.left .exec, .left .send, .right .exec, .right .send, .receiveRight, .receiveLeft] = some s ∧
        u = inTexts Sample true 0 s ∧ sentTexts u = (sentRecords s).map (recordBytes Sample 0) ∧
        (sentTexts u).map parse = (sentRecords s).map
          fun r => .ok (asRead (F := Sample) (.object (recordMembers 0 r))) := by
  obtain ⟨s₀, u, h0, hrun, hsend⟩ : ∃ (s₀ : State Sample) (u : TextState Sample),
      start 1000 0 0 1000 1000 = some s₀ ∧
      (textPipeline Sample Sample true 0 1000 1000 (fun T => (T, .half)) fun T => (T, .zero)).machine.run
        (inTexts Sample true 0 s₀)
        [.left .exec, .left .send, .right .exec, .right .send, .receiveRight, .receiveLeft] = some u ∧
      AllSendable Sample (fun T => (T, .half)) (fun T => (T, .zero)) u :=
    ⟨_, _, rfl, rfl, List.forall_mem_singleton.2 ⟨⟨.binance, rfl⟩, by decide, by decide, rfl⟩,
      List.forall_mem_singleton.2 ⟨⟨.bitmex, rfl⟩, by decide, by decide, rfl⟩⟩
  exact ⟨s₀, u, h0, hrun, textPipeline_refines h0 hrun hsend⟩

/-- Whatever the order of the steps, the aligner has sent one text for each label that has arrived from both
aggregators, that of the record of the two ticks, when all ticks sent can be read; and each text is parsed
to the members of its record as they are read back. -/
theorem textPipeline_law (hi₁ : 0 < i₁) (hi₂ : 0 < i₂) (hn₁ : 0 ≤ n₁) (hn₂ : 0 ≤ n₂)
    (h0 : start size n₁ n₂ i₁ i₂ = some s₀)
    (hrun : (textPipeline F Price DEBUG indeterminate i₁ i₂ garbage₁ garbage₂).machine.run
      (inTexts F DEBUG indeterminate s₀) evs = some u) (hsend : AllSendable F garbage₁ garbage₂ u) :
    ∃ B M : List (Message Price),
      u.left.sent.map (fun x => tickBytes F DEBUG (wire .binance garbage₁ x)) =
        B.map (tickBytes F DEBUG) ++ u.leftLink ∧
      u.right.sent.map (fun x => tickBytes F DEBUG (wire .bitmex garbage₂ x)) =
        M.map (tickBytes F DEBUG) ++ u.rightLink ∧
      (∃ tickMap, u.receiver = .ok tickMap) ∧
      ∃ rs : List (Record Price), sentTexts u = rs.map (recordBytes F indeterminate) ∧
        (sentTexts u).map parse =
          rs.map (fun r => .ok (asRead (F := F) (.object (recordMembers indeterminate r)))) ∧
        (rs.map Record.T).Nodup ∧
        ∀ r, r ∈ rs ↔ ∃ b ∈ B, ∃ m ∈ M, b.T = m.T ∧ r = joined DEBUG b m := by
  obtain ⟨s, hs, rfl⟩ := run_inTexts h0 hrun hsend
  obtain ⟨B, M, l, h⟩ := delivered_of_start h0 hs
  have hlaw := law_of_delivered hi₁ hi₂ hn₁ hn₂ h0 hs h
  refine ⟨B, M, ?_, ?_, ⟨s.receiver, rfl⟩, sentRecords s, sentTexts_inTexts s, ?_, hlaw.nodup,
    hlaw.mem_records⟩
  · have hsent := congrArg (List.map (tickBytes F DEBUG)) hlaw.binance_sent
    rwa [List.map_map, List.map_append] at hsent
  · have hsent := congrArg (List.map (tickBytes F DEBUG)) hlaw.bitmex_sent
    rwa [List.map_map, List.map_append] at hsent
  · rw [sentTexts_inTexts, map_parse_recordBytes]

/-- Two aggregators started at 0, once both have sent their first ticks and these have arrived. -/
theorem textPipeline_law_first :
    ∃ (s₀ : State Sample) (u : TextState Sample), start 1000 0 0 1000 1000 = some s₀ ∧
      (textPipeline Sample Sample true 0 1000 1000 (fun T => (T, .half)) fun T => (T, .zero)).machine.run
        (inTexts Sample true 0 s₀)
        [.left .exec, .left .send, .right .exec, .right .send, .receiveRight, .receiveLeft] = some u ∧
      ∃ B M : List (Message Sample),
        u.left.sent.map (fun x => tickBytes Sample true (wire .binance (fun T => (T, .half)) x)) =
          B.map (tickBytes Sample true) ++ u.leftLink ∧
        u.right.sent.map (fun x => tickBytes Sample true (wire .bitmex (fun T => (T, .zero)) x)) =
          M.map (tickBytes Sample true) ++ u.rightLink ∧
        (∃ tickMap, u.receiver = .ok tickMap) ∧
        ∃ rs : List (Record Sample), sentTexts u = rs.map (recordBytes Sample 0) ∧
          (sentTexts u).map parse =
            rs.map (fun r => .ok (asRead (F := Sample) (.object (recordMembers 0 r)))) ∧
          (rs.map Record.T).Nodup ∧
          ∀ r, r ∈ rs ↔ ∃ b ∈ B, ∃ m ∈ M, b.T = m.T ∧ r = joined true b m := by
  obtain ⟨s₀, u, h0, hrun, hsend⟩ : ∃ (s₀ : State Sample) (u : TextState Sample),
      start 1000 0 0 1000 1000 = some s₀ ∧
      (textPipeline Sample Sample true 0 1000 1000 (fun T => (T, .half)) fun T => (T, .zero)).machine.run
        (inTexts Sample true 0 s₀)
        [.left .exec, .left .send, .right .exec, .right .send, .receiveRight, .receiveLeft] = some u ∧
      AllSendable Sample (fun T => (T, .half)) (fun T => (T, .zero)) u :=
    ⟨_, _, rfl, rfl, List.forall_mem_singleton.2 ⟨⟨.binance, rfl⟩, by decide, by decide, rfl⟩,
      List.forall_mem_singleton.2 ⟨⟨.bitmex, rfl⟩, by decide, by decide, rfl⟩⟩
  exact ⟨s₀, u, h0, hrun,
    textPipeline_law (by decide) (by decide) (by decide) (by decide) h0 hrun hsend⟩

end Typhoon.Pipeline
