import Typhoon.Aligner.Startup
import Typhoon.Pipeline.Model

/-!
# What the pipeline keeps

`pipeline_law` is what holds in every state of every run: the records sent so far are those of the
labels that have arrived from both aggregators, each once, and each with the values that the two sent.
`pipeline_progress` says that no record is lost: from every state, each label past both first clock
readings that the two intervals have in common can still get its record, if it has not got it.
`stuck_iff` tells what happens to the other labels. They stay in `tickMap` for good.
-/

namespace Typhoon.Pipeline

open Aggregator Aligner

variable {Price : Type*} [Zero Price]

/-- The law of a state in which the ticks `B` of the binance aggregator and `M` of the bitmex
aggregator have arrived. -/
structure Law (DEBUG : Bool) (i₁ i₂ n₁ n₂ : ℤ) (garbage₁ garbage₂ : ℤ → ℤ × Price)
    (B M : List (Message Price)) (s : State Price) : Prop where
  /-- What has been sent and has not arrived is on its way, in order. -/
  binance_sent : s.left.sent.map (wire .binance garbage₁) = B ++ s.leftLink
  /-- What has been sent and has not arrived is on its way, in order. -/
  bitmex_sent : s.right.sent.map (wire .bitmex garbage₂) = M ++ s.rightLink
  /-- The records are those of the pairs of ticks with one label. -/
  mem_records : ∀ r, r ∈ sentRecords s ↔ ∃ b ∈ B, ∃ m ∈ M, b.T = m.T ∧ r = joined DEBUG b m
  /-- No label has two records. -/
  nodup : ((sentRecords s).map Record.T).Nodup
  /-- The labels of the records are the multiples of both intervals, past both clock readings, up to
  where both streams have got. -/
  labels : ∀ T, T ∈ (sentRecords s).map Record.T ↔ i₁ ∣ T ∧ i₂ ∣ T ∧ max n₁ n₂ < T ∧
    T < horizon i₁ n₁ B.length ∧ T < horizon i₂ n₂ M.length
  /-- The keys of the map are the labels that have arrived from one aggregator alone. -/
  mem_tickMap : ∀ T, T ∈ s.receiver ↔ (T ∈ B.map Message.T ∧ T ∉ M.map Message.T) ∨
    (T ∉ B.map Message.T ∧ T ∈ M.map Message.T)

omit [Zero Price] in
/-- The records of a join are those of the pairs with one label. -/
theorem mem_innerJoin {B M : List (Message Price)} (hs : Streams B M) (DEBUG : Bool)
    (r : Record Price) :
    r ∈ innerJoin DEBUG B M ↔ ∃ b ∈ B, ∃ m ∈ M, b.T = m.T ∧ r = joined DEBUG b m := by
  simp only [innerJoin, List.mem_filterMap, Option.map_eq_some_iff]
  refine exists_congr fun b => and_congr_right fun _ => ?_
  constructor
  · rintro ⟨m, hfind, rfl⟩
    have hT := List.find?_some hfind
    rw [decide_eq_true_eq] at hT
    exact ⟨m, List.mem_of_find?_eq_some hfind, hT.symm, rfl⟩
  · rintro ⟨m, hm, hT, rfl⟩
    refine ⟨m, ?_, rfl⟩
    -- Labels are distinct, so the first message found is the one.
    have hone := messagesAt_of_mem hs.nodup_bitmex hm
    rw [← hT] at hone
    rw [← List.head?_filter]
    show (messagesAt b.T M).head? = some m
    rw [hone]
    rfl

variable {DEBUG : Bool} {size n₁ n₂ i₁ i₂ : ℤ} {garbage₁ garbage₂ : ℤ → ℤ × Price}
  {s₀ s s' : State Price} {evs evs' : List (Step Price)} {B M l : List (Message Price)}

omit [Zero Price] in
/-- The pipeline begins with two aggregators, empty links and an empty map. -/
theorem start_eq_some (h0 : start size n₁ n₂ i₁ i₂ = some s₀) :
    ∃ b m, Process.start size n₁ i₁ = some b ∧ Process.start size n₂ i₂ = some m ∧
      s₀ = ⟨b, m, [], [], ∅, []⟩ := by
  obtain ⟨b, hb, hrest⟩ := Option.bind_eq_some_iff.1 h0
  obtain ⟨m, hm, hs⟩ := Option.map_eq_some_iff.1 hrest
  exact ⟨b, m, hb, hm, hs.symm⟩

/-- What a run delivers goes on what had been delivered before it. -/
theorem run_delivered (h : Fanin.Delivered (pipeline DEBUG i₁ i₂ garbage₁ garbage₂) ∅ B M l s)
    (hrun : (pipeline DEBUG i₁ i₂ garbage₁ garbage₂).machine.run s evs = some s') :
    ∃ B' M' l', B <+: B' ∧ M <+: M' ∧ l <+: l' ∧
      Fanin.Delivered (pipeline DEBUG i₁ i₂ garbage₁ garbage₂) ∅ B' M' l' s' :=
  Fanin.run_delivered (fun _ _ _ hstep => (sent_isPrefix hstep).map _)
    (fun _ _ _ hstep => (sent_isPrefix hstep).map _) h hrun

/-- Nothing has been delivered at the start. -/
theorem delivered_start (h0 : start size n₁ n₂ i₁ i₂ = some s₀) :
    Fanin.Delivered (pipeline DEBUG i₁ i₂ garbage₁ garbage₂) ∅ [] [] [] s₀ := by
  obtain ⟨b, m, hb, hm, rfl⟩ := start_eq_some h0
  obtain ⟨F₁, -, rfl⟩ := Process.start_eq_some hb
  obtain ⟨F₂, -, rfl⟩ := Process.start_eq_some hm
  exact Fanin.delivered_nil rfl rfl

/-- In a run from the start, the aligner has got an interleaving of the first messages of both. -/
theorem delivered_of_start (h0 : start size n₁ n₂ i₁ i₂ = some s₀)
    (hrun : (pipeline DEBUG i₁ i₂ garbage₁ garbage₂).machine.run s₀ evs = some s) :
    ∃ B M l, Fanin.Delivered (pipeline DEBUG i₁ i₂ garbage₁ garbage₂) ∅ B M l s := by
  obtain ⟨B, M, l, -, -, -, h⟩ := run_delivered (delivered_start h0) hrun
  exact ⟨B, M, l, h⟩

section Run

variable (hi₁ : 0 < i₁) (hi₂ : 0 < i₂) (hn₁ : 0 ≤ n₁) (hn₂ : 0 ≤ n₂)
  (h0 : start size n₁ n₂ i₁ i₂ = some s₀)
  (hrun : (pipeline DEBUG i₁ i₂ garbage₁ garbage₂).machine.run s₀ evs = some s)
include hi₁ hi₂ hn₁ hn₂ h0 hrun

/-- What has arrived in a run from the start are streams of the two aggregators. -/
theorem streams_of_delivered
    (h : Fanin.Delivered (pipeline DEBUG i₁ i₂ garbage₁ garbage₂) ∅ B M l s) :
    Stream .binance i₁ n₁ B ∧ Stream .bitmex i₂ n₂ M := by
  obtain ⟨b, m, hb, hm, rfl⟩ := start_eq_some h0
  obtain ⟨hleft, hright⟩ := Fanin.run_senders hrun
  obtain ⟨-, hlabels₁⟩ := Process.labels_eq (getClosestTp_eq hi₁ hn₁) hb hleft
  obtain ⟨-, hlabels₂⟩ := Process.labels_eq (getClosestTp_eq hi₂ hn₂) hm hright
  constructor
  · apply stream_of_isPrefix
    rw [← map_wire_eq_sendEvery .binance garbage₁ hlabels₁]
    exact ⟨_, h.left_eq.symm⟩
  · apply stream_of_isPrefix
    rw [← map_wire_eq_sendEvery .bitmex garbage₂ hlabels₂]
    exact ⟨_, h.right_eq.symm⟩

/-- A state in which ticks have been delivered keeps the law for them. -/
theorem law_of_delivered
    (h : Fanin.Delivered (pipeline DEBUG i₁ i₂ garbage₁ garbage₂) ∅ B M l s) :
    Law DEBUG i₁ i₂ n₁ n₂ garbage₁ garbage₂ B M s := by
  obtain ⟨hB, hM⟩ := streams_of_delivered hi₁ hi₂ hn₁ hn₂ h0 hrun h
  have hs := streams hi₁ hi₂ hB hM
  have hrecords : sentRecords s = records DEBUG l := by
    rw [sentRecords, h.outputs_eq]
    rfl
  have htickMap : s.receiver = tickMap DEBUG l := h.receiver_eq
  have hperm := records_perm hs h.interleave DEBUG
  have hlabels : ∀ T, T ∈ (records DEBUG l).map Record.T ↔
      T ∈ B.map Message.T ∧ T ∈ M.map Message.T := by
    intro T
    rw [(hperm.map Record.T).mem_iff, mem_map_innerJoin]
  refine ⟨h.left_eq, h.right_eq, ?_, ?_, ?_, ?_⟩
  · intro r
    rw [hrecords, hperm.mem_iff, mem_innerJoin hs]
  · rw [hrecords, (hperm.map Record.T).nodup_iff]
    exact hs.nodup_binance.sublist (map_innerJoin_sublist DEBUG _ _)
  · intro T
    rw [hrecords, hlabels, hB.mem_labels hi₁, hM.mem_labels hi₂, max_lt_iff]
    tauto
  · intro T
    rw [htickMap, mem_join hs h.interleave DEBUG]

/-- From every state of a run, both streams can get past any label. -/
theorem exists_past (H : ℤ) :
    ∃ evs' s' B M, (pipeline DEBUG i₁ i₂ garbage₁ garbage₂).machine.run s evs' = some s' ∧
      Law DEBUG i₁ i₂ n₁ n₂ garbage₁ garbage₂ B M s' ∧ Stream .binance i₁ n₁ B ∧
        Stream .bitmex i₂ n₂ M ∧ H < horizon i₁ n₁ B.length ∧ H < horizon i₂ n₂ M.length := by
  obtain ⟨k₁, hk₁⟩ := exists_lt_horizon hi₁ n₁ H
  obtain ⟨k₂, hk₂⟩ := exists_lt_horizon hi₂ n₂ H
  -- Both aggregators go on to send enough ticks, and then all that is on its way arrives.
  obtain ⟨is, b, hb, hsent₁⟩ := exists_sent i₁ s.left k₁
  obtain ⟨a, ha, rfl, har⟩ :=
    Fanin.exists_run_left (pipeline DEBUG i₁ i₂ garbage₁ garbage₂) s hb
  obtain ⟨js, m, hm, hsent₂⟩ := exists_sent i₂ s.right k₂
  rw [← har] at hm
  obtain ⟨c, hc, hcl, rfl⟩ :=
    Fanin.exists_run_right (pipeline DEBUG i₁ i₂ garbage₁ garbage₂) a hm
  obtain ⟨ks, s', hdrain, hl, hr, hlink₁, hlink₂⟩ :=
    Fanin.exists_drain (pipeline DEBUG i₁ i₂ garbage₁ garbage₂) c
  have hrun' : (pipeline DEBUG i₁ i₂ garbage₁ garbage₂).machine.run s
      (is.map .left ++ (js.map .right ++ ks)) = some s' :=
    Guarded.run_append_eq_some.2 ⟨a, ha, Guarded.run_append_eq_some.2 ⟨c, hc, hdrain⟩⟩
  have hall := Guarded.run_append_eq_some.2 ⟨s, hrun, hrun'⟩
  obtain ⟨B, M, l, h⟩ := delivered_of_start h0 hall
  obtain ⟨hB, hM⟩ := streams_of_delivered hi₁ hi₂ hn₁ hn₂ h0 hall h
  have hlaw := law_of_delivered hi₁ hi₂ hn₁ hn₂ h0 hall h
  refine ⟨_, s', B, M, hrun', hlaw, hB, hM, ?_, ?_⟩
  · refine lt_of_lt_of_le hk₁ (horizon_le hi₁ n₁ ?_)
    have hlen := congrArg List.length hlaw.binance_sent
    rw [hlink₁, List.append_nil, List.length_map, hl, hcl] at hlen
    exact hlen ▸ hsent₁
  · refine lt_of_lt_of_le hk₂ (horizon_le hi₂ n₂ ?_)
    have hlen := congrArg List.length hlaw.bitmex_sent
    rw [hlink₂, List.append_nil, List.length_map, hr] at hlen
    exact hlen ▸ hsent₂

end Run

/-- Whatever the order of the steps of the three programs, the aligner has sent one record for each
label that has arrived from both aggregators, built from the ticks that they sent, and keeps the labels
that have arrived from one alone. -/
theorem pipeline_law (hi₁ : 0 < i₁) (hi₂ : 0 < i₂) (hn₁ : 0 ≤ n₁) (hn₂ : 0 ≤ n₂)
    (h0 : start size n₁ n₂ i₁ i₂ = some s₀)
    (hrun : (pipeline DEBUG i₁ i₂ garbage₁ garbage₂).machine.run s₀ evs = some s) :
    ∃ B M, Law DEBUG i₁ i₂ n₁ n₂ garbage₁ garbage₂ B M s := by
  obtain ⟨B, M, l, h⟩ := delivered_of_start h0 hrun
  exact ⟨B, M, law_of_delivered hi₁ hi₂ hn₁ hn₂ h0 hrun h⟩

/-- A binance aggregator started at 0, with a bitmex aggregator started at 1500, once its first tick
has arrived. -/
theorem pipeline_law_first :
    ∃ s₀ s : State ℤ, start 1000 0 1500 1000 1000 = some s₀ ∧
      (pipeline true 1000 1000 (fun T => (T, 7)) fun T => (T, 9)).machine.run s₀
        [.left .exec, .left .send, .receiveLeft] = some s ∧
      ∃ B M, Law true 1000 1000 0 1500 (fun T => (T, 7)) (fun T => (T, 9)) B M s := by
  obtain ⟨s₀, s, h0, hrun⟩ : ∃ s₀ s : State ℤ, start 1000 0 1500 1000 1000 = some s₀ ∧
      (pipeline true 1000 1000 (fun T => (T, 7)) fun T => (T, 9)).machine.run s₀
        [.left .exec, .left .send, .receiveLeft] = some s := ⟨_, _, rfl, rfl⟩
  exact ⟨s₀, s, h0, hrun, pipeline_law (by decide) (by decide) (by decide) (by decide) h0 hrun⟩

/-- In every state of a run, each label past both clock readings that the two intervals have in common
has got its record, or can still get it. -/
theorem pipeline_progress (hi₁ : 0 < i₁) (hi₂ : 0 < i₂) (hn₁ : 0 ≤ n₁) (hn₂ : 0 ≤ n₂)
    (h0 : start size n₁ n₂ i₁ i₂ = some s₀)
    (hrun : (pipeline DEBUG i₁ i₂ garbage₁ garbage₂).machine.run s₀ evs = some s)
    {T : ℤ} (hT₁ : i₁ ∣ T) (hT₂ : i₂ ∣ T) (hT : max n₁ n₂ < T) :
    ∃ evs' s', (pipeline DEBUG i₁ i₂ garbage₁ garbage₂).machine.run s evs' = some s' ∧
      T ∈ (sentRecords s').map Record.T := by
  obtain ⟨evs', s', B, M, hrun', hlaw, -, -, hend₁, hend₂⟩ :=
    exists_past hi₁ hi₂ hn₁ hn₂ h0 hrun T
  exact ⟨evs', s', hrun', (hlaw.labels T).2 ⟨hT₁, hT₂, hT, hend₁, hend₂⟩⟩

/-- At the start of the two aggregators, the label 2000 can get its record. -/
theorem pipeline_progress_start :
    ∃ s₀ : State ℤ, start 1000 0 1500 1000 1000 = some s₀ ∧
      ∃ evs' s', (pipeline true 1000 1000 (fun T => (T, 7)) fun T => (T, 9)).machine.run s₀ evs' =
        some s' ∧ 2000 ∈ (sentRecords s').map Record.T := by
  obtain ⟨s₀, h0⟩ : ∃ s₀ : State ℤ, start 1000 0 1500 1000 1000 = some s₀ := ⟨_, rfl⟩
  exact ⟨s₀, h0, pipeline_progress (by decide) (by decide) (by decide) (by decide) h0
    (Guarded.run_nil _ _) (by decide) (by decide) (by decide)⟩

/-- From every state of a run, a label past both clock readings that the two intervals have in common can
leave `tickMap`. -/
theorem exists_not_mem (hi₁ : 0 < i₁) (hi₂ : 0 < i₂) (hn₁ : 0 ≤ n₁) (hn₂ : 0 ≤ n₂)
    (h0 : start size n₁ n₂ i₁ i₂ = some s₀)
    (hrun : (pipeline DEBUG i₁ i₂ garbage₁ garbage₂).machine.run s₀ evs = some s)
    {T : ℤ} (hT₁ : i₁ ∣ T) (hT₂ : i₂ ∣ T) (hT : max n₁ n₂ < T) :
    ∃ evs' s', (pipeline DEBUG i₁ i₂ garbage₁ garbage₂).machine.run s evs' = some s' ∧
      T ∉ s'.receiver := by
  -- The label gets its record, and then both streams have it.
  obtain ⟨evs', s', B, M, hrun', hlaw, hB, hM, hend₁, hend₂⟩ :=
    exists_past hi₁ hi₂ hn₁ hn₂ h0 hrun T
  obtain ⟨hn₁T, hn₂T⟩ := max_lt_iff.1 hT
  have hTB := (hB.mem_labels hi₁ T).2 ⟨hT₁, hn₁T, hend₁⟩
  have hTM := (hM.mem_labels hi₂ T).2 ⟨hT₂, hn₂T, hend₂⟩
  refine ⟨evs', s', hrun', fun hmem => ?_⟩
  rcases (hlaw.mem_tickMap T).1 hmem with ⟨-, hnot⟩ | ⟨hnot, -⟩
  · exact hnot hTM
  · exact hnot hTB

/-- A label that the two intervals do not have in common past both clock readings stays in `tickMap`, once it
is there. -/
theorem mem_of_mem (hi₁ : 0 < i₁) (hi₂ : 0 < i₂) (hn₁ : 0 ≤ n₁) (hn₂ : 0 ≤ n₂)
    (h0 : start size n₁ n₂ i₁ i₂ = some s₀)
    (hrun : (pipeline DEBUG i₁ i₂ garbage₁ garbage₂).machine.run s₀ evs = some s)
    (hrun' : (pipeline DEBUG i₁ i₂ garbage₁ garbage₂).machine.run s evs' = some s')
    {T : ℤ} (hmem : T ∈ s.receiver) (hnot : ¬ (i₁ ∣ T ∧ i₂ ∣ T ∧ max n₁ n₂ < T)) :
    T ∈ s'.receiver := by
  obtain ⟨B, M, l, h⟩ := delivered_of_start h0 hrun
  obtain ⟨B', M', l', hBB', hMM', -, h'⟩ := run_delivered h hrun'
  have hall := Guarded.run_append_eq_some.2 ⟨s, hrun, hrun'⟩
  obtain ⟨hB, hM⟩ := streams_of_delivered hi₁ hi₂ hn₁ hn₂ h0 hall h'
  have hlaw := law_of_delivered hi₁ hi₂ hn₁ hn₂ h0 hrun h
  have hlaw' := law_of_delivered hi₁ hi₂ hn₁ hn₂ h0 hall h'
  have hboth : ¬ (T ∈ B'.map Message.T ∧ T ∈ M'.map Message.T) := by
    rintro ⟨hTB, hTM⟩
    obtain ⟨hd₁, hlt₁, -⟩ := (hB.mem_labels hi₁ T).1 hTB
    obtain ⟨hd₂, hlt₂, -⟩ := (hM.mem_labels hi₂ T).1 hTM
    exact hnot ⟨hd₁, hd₂, max_lt hlt₁ hlt₂⟩
  rw [hlaw'.mem_tickMap]
  rcases (hlaw.mem_tickMap T).1 hmem with ⟨hT, -⟩ | ⟨-, hT⟩
  · have hT' := (hBB'.map Message.T).subset hT
    exact .inl ⟨hT', fun hT'' => hboth ⟨hT', hT''⟩⟩
  · have hT' := (hMM'.map Message.T).subset hT
    exact .inr ⟨fun hT'' => hboth ⟨hT'', hT'⟩, hT'⟩

/-- An entry that a state has stays in every run from it exactly when its label is not one that the two
intervals have in common past both clock readings. -/
theorem forall_mem_iff (hi₁ : 0 < i₁) (hi₂ : 0 < i₂) (hn₁ : 0 ≤ n₁) (hn₂ : 0 ≤ n₂)
    (h0 : start size n₁ n₂ i₁ i₂ = some s₀)
    (hrun : (pipeline DEBUG i₁ i₂ garbage₁ garbage₂).machine.run s₀ evs = some s)
    {T : ℤ} (hmem : T ∈ s.receiver) :
    (∀ evs' s', (pipeline DEBUG i₁ i₂ garbage₁ garbage₂).machine.run s evs' = some s' →
      T ∈ s'.receiver) ↔ ¬ (i₁ ∣ T ∧ i₂ ∣ T ∧ max n₁ n₂ < T) := by
  constructor
  · rintro hkept ⟨hT₁, hT₂, hT⟩
    obtain ⟨evs', s', hrun', hnot⟩ := exists_not_mem hi₁ hi₂ hn₁ hn₂ h0 hrun hT₁ hT₂ hT
    exact hnot (hkept evs' s' hrun')
  · intro hnot evs' s' hrun'
    exact mem_of_mem hi₁ hi₂ hn₁ hn₂ h0 hrun hrun' hmem hnot

/-- An entry of `tickMap` stays there in every run from a state exactly when its label is not one that
the two intervals have in common past both clock readings. -/
theorem stuck_iff (hi₁ : 0 < i₁) (hi₂ : 0 < i₂) (hn₁ : 0 ≤ n₁) (hn₂ : 0 ≤ n₂)
    (h0 : start size n₁ n₂ i₁ i₂ = some s₀)
    (hrun : (pipeline DEBUG i₁ i₂ garbage₁ garbage₂).machine.run s₀ evs = some s)
    (T : ℤ) :
    (∀ evs' s', (pipeline DEBUG i₁ i₂ garbage₁ garbage₂).machine.run s evs' = some s' →
      T ∈ s'.receiver) ↔
      T ∈ s.receiver ∧ ¬ (i₁ ∣ T ∧ i₂ ∣ T ∧ max n₁ n₂ < T) := by
  constructor
  · intro hkept
    have hmem := hkept [] s rfl
    exact ⟨hmem, (forall_mem_iff hi₁ hi₂ hn₁ hn₂ h0 hrun hmem).1 hkept⟩
  · rintro ⟨hmem, hnot⟩
    exact (forall_mem_iff hi₁ hi₂ hn₁ hn₂ h0 hrun hmem).2 hnot

/-- Once the tick labelled 1000 has arrived, it is kept for good. -/
theorem stuck_iff_first :
    ∃ s₀ s : State ℤ, start 1000 0 1500 1000 1000 = some s₀ ∧
      (pipeline true 1000 1000 (fun T => (T, 7)) fun T => (T, 9)).machine.run s₀
        [.left .exec, .left .send, .receiveLeft] = some s ∧
      ((∀ evs' s', (pipeline true 1000 1000 (fun T => (T, 7)) fun T => (T, 9)).machine.run s evs' =
        some s' → 1000 ∈ s'.receiver) ↔
        1000 ∈ s.receiver ∧ ¬ ((1000 : ℤ) ∣ 1000 ∧ (1000 : ℤ) ∣ 1000 ∧ max (0 : ℤ) 1500 < 1000)) := by
  obtain ⟨s₀, s, h0, hrun⟩ : ∃ s₀ s : State ℤ, start 1000 0 1500 1000 1000 = some s₀ ∧
      (pipeline true 1000 1000 (fun T => (T, 7)) fun T => (T, 9)).machine.run s₀
        [.left .exec, .left .send, .receiveLeft] = some s := ⟨_, _, rfl, rfl⟩
  exact ⟨s₀, s, h0, hrun, stuck_iff (by decide) (by decide) (by decide) (by decide) h0 hrun 1000⟩

end Typhoon.Pipeline
