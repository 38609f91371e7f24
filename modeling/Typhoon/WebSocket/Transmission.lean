import Typhoon.WebSocket.Messages

/-!
# What one endpoint writes, the other reads

The writer and the reader of the library against each other: the messages that `prepare_data_frame` prepares at one
endpoint are handed to the message handler of the other, whichever of the two is the server, however the bytes are
cut on the way (`reads_prepared`).
-/

namespace Typhoon.WebSocket

/-- The message that an endpoint sends with a key, as a peer sends it. -/
def Sending.whole (e : Endpoint) (m : Message × MaskingKey) : Sending where
  opcode := m.1.opcode
  first := ⟨[], m.1.payload, if e.isServer then none else some m.2⟩
  rest := []

variable {e e' : Endpoint}

/-- A message that is prepared is a frame, and valid if it is a text. -/
theorem prepareDataFrame_ok {m : Message × MaskingKey} {out : Message} (h : prepareDataFrame e m.1 m.2 = .ok out)
    (hfin : m.1.fin = true) :
    out.header ++ out.payload = (Sending.whole e m).frames.flatMap Frame.bytes ∧
      (m.1.opcode = .text → Utf8.Valid m.1.payload) := by
  unfold prepareDataFrame at h
  split_ifs at h with hop hvalid
  cases h
  refine ⟨?_, fun htext => ?_⟩
  · rw [hfin, Frame.bytes_written]
    exact (List.append_nil _).symm
  · by_contra hne
    exact hvalid ⟨htext, fun h => hne ((Validator.validate_iff _).1 h)⟩

/-- The messages that are prepared are those that a peer sends. -/
theorem sendBuffer_eq {ms : List (Message × MaskingKey)} {outs : List Message}
    (hout : List.Forall₂ (fun m out => prepareDataFrame e m.1 m.2 = .ok out) ms outs)
    (hfin : ∀ m ∈ ms, m.1.fin = true) : sendBuffer outs = sentBytes (ms.map (Sending.whole e)) := by
  unfold sendBuffer sentBytes
  induction hout with
  | nil => rfl
  | cons h _ ih =>
    obtain ⟨hm, hms⟩ := List.forall_mem_cons.1 hfin
    rw [List.flatMap_cons, List.map_cons, List.flatMap_cons, List.flatMap_append, ih hms, (prepareDataFrame_ok h hm).1]

/-- A message that is prepared is allowed at the other endpoint. -/
theorem Sending.allowed_whole (hrole : e'.isServer = !e.isServer) {m : Message × MaskingKey} {out : Message}
    (h : prepareDataFrame e m.1 m.2 = .ok out) (hfin : m.1.fin = true)
    (hdata : m.1.opcode = .text ∨ m.1.opcode = .binary) (hsmall : m.1.payload.length ≤ e'.maxMessageSize) :
    (Sending.whole e m).Allowed e' := by
  obtain ⟨-, hvalid⟩ := prepareDataFrame_ok h hfin
  have hpayload : (Sending.whole e m).payload = m.1.payload := List.append_nil _
  have hmasked : (Sending.whole e m).first.key.isSome = e'.isServer := by
    rw [hrole]
    unfold Sending.whole
    cases e.isServer <;> rfl
  refine ⟨hdata, fun y hy => ?_, ?_, fun htext _ => ?_, fun htext => ⟨[], ?_⟩⟩
  · rw [List.mem_singleton.1 hy]
    exact ⟨fun s hs => (nomatch hs), hmasked⟩
  · rwa [hpayload]
  · rw [hpayload]
    exact hvalid htext
  · rw [hpayload, List.append_nil]
    exact hvalid htext

/-- Each message is prepared. -/
theorem exists_prepared {ms : List (Message × MaskingKey)} {outs : List Message}
    (hout : List.Forall₂ (fun m out => prepareDataFrame e m.1 m.2 = .ok out) ms outs) :
    ∀ m ∈ ms, ∃ out, prepareDataFrame e m.1 m.2 = .ok out := by
  induction hout with
  | nil => exact List.forall_mem_nil _
  | cons h _ ih => exact List.forall_mem_cons.2 ⟨⟨_, h⟩, ih⟩

/-- **What one endpoint writes, the other reads.** -/
theorem reads_prepared (hrole : e'.isServer = !e.isServer) (hmax : e'.maxMessageSize < 2 ^ 64)
    {ms : List (Message × MaskingKey)} {outs : List Message}
    (hout : List.Forall₂ (fun m out => prepareDataFrame e m.1 m.2 = .ok out) ms outs)
    (hdata : ∀ m ∈ ms, (m.1.opcode = .text ∨ m.1.opcode = .binary) ∧ m.1.fin = true)
    (hsmall : ∀ m ∈ ms, m.1.payload.length ≤ e'.maxMessageSize) {bufs : List (List UInt8)}
    (hbufs : bufs.flatten = sendBuffer outs) :
    (Connection.start.reads e' bufs).2 =
        ms.map (fun m => { Message.construct m.1.opcode with payload := m.1.payload }) ∧
      (Connection.start.reads e' bufs).1.session.sent = [] ∧
      (Connection.start.reads e' bufs).1.session.state = .open := by
  have hallowed : ∀ x ∈ ms.map (Sending.whole e), x.Allowed e' := by
    intro x hx
    obtain ⟨m, hm, rfl⟩ := List.mem_map.1 hx
    obtain ⟨out, hprepared⟩ := exists_prepared hout m hm
    exact Sending.allowed_whole hrole hprepared (hdata m hm).2 (hdata m hm).1 (hsmall m hm)
  have hsignals : ∀ x ∈ ms.map (Sending.whole e), x.signals = [] := by
    intro x hx
    obtain ⟨m, -, rfl⟩ := List.mem_map.1 hx
    rfl
  have hclose : ∀ x ∈ ms.map (Sending.whole e), ∀ s ∈ x.signals, s.opcode ≠ .close := fun x hx s hs => by
    rw [hsignals x hx] at hs
    cases hs
  have hnone : (ms.map (Sending.whole e)).flatMap Sending.signals = [] := List.flatMap_eq_nil_iff.2 hsignals
  obtain ⟨hmsgs, m, hok⟩ := decode_sentBytes hmax hallowed
  rw [← sendBuffer_eq hout fun m hm => (hdata m hm).2, ← hbufs] at hmsgs hok
  obtain ⟨hsent, hstate⟩ := Connection.reads_of_ok hok
  rw [hmsgs] at hsent hstate
  refine ⟨?_, hsent.trans ?_, hstate.trans (if_neg (not_close_messages hallowed hclose))⟩
  · rw [Connection.reads_handled, hmsgs, handled_messages hallowed hclose, List.map_map]
    refine List.map_congr_left fun m _ => ?_
    show { Message.construct m.1.opcode with payload := (Sending.whole e m).payload } = _
    rw [show (Sending.whole e m).payload = m.1.payload from List.append_nil _]
  · rw [replies_messages hallowed hclose, hnone]
    rfl

/-- A text and a binary message from a client to a server. -/
theorem reads_prepared_two :
    ∃ outs, List.Forall₂ (fun m out => prepareDataFrame smallClient m.1 m.2 = .ok out)
        [({ Message.construct .text with payload := [65] }, fun _ => 7),
          ({ Message.construct .binary with payload := [255] }, fun _ => 9)] outs ∧
      (Connection.start.reads ⟨true, 1, fun _ _ => 0⟩ [sendBuffer outs]).2 =
        [{ Message.construct .text with payload := [65] }, { Message.construct .binary with payload := [255] }] := by
  have hout : List.Forall₂ (fun m out => prepareDataFrame smallClient m.1 m.2 = .ok out)
      [({ Message.construct .text with payload := [65] }, fun _ => 7),
        ({ Message.construct .binary with payload := [255] }, fun _ => 9)] [_, _] :=
    .cons rfl (.cons rfl .nil)
  refine ⟨_, hout, (reads_prepared rfl (by decide) hout ?_ ?_ (List.append_nil _)).1⟩
  · exact List.forall_mem_cons.2 ⟨⟨.inl rfl, rfl⟩, List.forall_mem_singleton.2 ⟨.inr rfl, rfl⟩⟩
  · exact List.forall_mem_cons.2 ⟨le_rfl, List.forall_mem_singleton.2 le_rfl⟩

end Typhoon.WebSocket
