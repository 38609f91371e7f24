import Typhoon.WebSocket.Processor

/-!
# What a processor keeps

The invariant of the processor, over any bytes that a peer may send. Between two passes the metadata that
`m_current_msg` points to is there where a payload is read, the data message is a text or a binary one, the
control message is short, and a text message is one that the validator has gone through. A step lemma for each
part of a pass gives `Sound.passed`, and the rule for the loop gives `Sound.consume`.
-/

namespace Typhoon.WebSocket

open Utf8 (scan)

/-! ## Messages -/

/-- The validator has gone through the payload of a text message, which is valid as far as it goes. -/
def MsgMetadata.Sound (md : MsgMetadata) : Prop :=
  md.message.opcode = .text → ∃ rs, scan [] md.message.payload = some rs ∧ md.validator.Expects rs

/-- A message without a payload is sound. -/
theorem MsgMetadata.sound_construct (op : Opcode) (key : MaskingKey) :
    (MsgMetadata.construct (.construct op) key).Sound :=
  fun _ => ⟨[], rfl, Validator.expects_construct⟩

/-- What is added to a message is as long as what was read, and the validator has gone through it. -/
theorem MsgMetadata.process_ok {masked : Bool} {buf : List UInt8} {md md' : MsgMetadata}
    (h : md.process masked buf = .ok md') :
    ∃ out : List UInt8, out.length = buf.length ∧
      md'.message = { md.message with payload := md.message.payload ++ out } ∧
      (md.message.opcode = .text → md.validator.decode out = (md'.validator, true)) := by
  have hout : ∀ key, (byteMaskCirc buf key).1.length = buf.length := fun _ => length_byteMask ..
  unfold process at h
  cases masked with
  | false =>
    dsimp only at h
    simp only [Bool.false_eq_true, if_false] at h
    split_ifs at h with htext hvalid
    · cases h
      exact ⟨buf, rfl, rfl, fun _ => Prod.ext rfl hvalid⟩
    · cases h
      exact ⟨buf, rfl, rfl, fun h => absurd h htext⟩
  | true =>
    dsimp only at h
    simp only [if_true] at h
    split_ifs at h with htext hvalid
    · cases h
      exact ⟨_, hout _, rfl, fun _ => Prod.ext rfl hvalid⟩
    · cases h
      exact ⟨_, hout _, rfl, fun h => absurd h htext⟩

/-- A message stays sound as its payload comes in. -/
theorem MsgMetadata.Sound.process {masked : Bool} {buf : List UInt8} {md md' : MsgMetadata} (h : md.Sound)
    (hok : md.process masked buf = .ok md') : md'.Sound := by
  obtain ⟨out, -, hmessage, hvalid⟩ := process_ok hok
  intro htext
  rw [hmessage] at htext
  obtain ⟨rs, hscan, hexp⟩ := h htext
  have hdecode := Validator.decode_eq_scan hexp out
  rw [hvalid htext] at hdecode
  rw [hmessage, Utf8.scan_append, hscan, Option.bind_some]
  cases hout : scan rs out with
  | none =>
    rw [hout] at hdecode
    cases hdecode
  | some rs' =>
    rw [hout] at hdecode
    exact ⟨rs', rfl, hdecode.2⟩

namespace Processor

variable {e : Endpoint} {m m' : Processor} {buf rest : List UInt8}

/-! ## The invariant -/

/-- What holds of a processor between two passes. -/
structure Sound (e : Endpoint) (m : Processor) : Prop where
  running : m.state ≠ .extension ∧ m.state ≠ .fatalError
  header : m.state = .headerExtended →
    validateIncomingBasicHeader m.basicHeader e.isServer m.dataMsg.isNone = none
  current : m.state = .application ∨ m.state = .ready → m.current.isSome
  data : ∀ md ∈ m.dataMsg, (md.message.opcode = .text ∨ md.message.opcode = .binary) ∧ md.Sound
  control : ∀ md ∈ m.controlMsg, md.message.opcode.isControl ∧
    md.message.payload.length +
      (if m.state = .application ∧ m.currentMsg = .control then m.bytesNeeded else 0) ≤ payloadSizeBasic

/-- A processor that reads the next byte: the loop of `consume` is over, and no message is ready. -/
structure Waiting (e : Endpoint) (m : Processor) : Prop extends Sound e m where
  notReady : m.state ≠ .ready
  needs : m.bytesNeeded ≠ 0

/-- A processor waits where the first byte of a frame is to come. -/
theorem waiting_resetHeaders
    (hdata : ∀ md ∈ m.dataMsg, (md.message.opcode = .text ∨ md.message.opcode = .binary) ∧ md.Sound)
    (hcontrol : ∀ md ∈ m.controlMsg, md.message.opcode.isControl ∧
      md.message.payload.length ≤ payloadSizeBasic) : m.resetHeaders.Waiting e where
  running := by simp [resetHeaders]
  header := by simp [resetHeaders]
  current := by simp [resetHeaders]
  data := hdata
  control := fun md hmd => by simpa [resetHeaders] using hcontrol md hmd
  notReady := by simp [resetHeaders]
  needs := by simp [resetHeaders]

/-- A new processor waits. -/
theorem waiting_construct : construct.Waiting e :=
  waiting_resetHeaders (fun md hmd => by cases hmd) fun md hmd => by cases hmd

/-- A control message is short. -/
theorem Sound.length_control (h : m.Sound e) {md : MsgMetadata} (hmd : md ∈ m.controlMsg) :
    md.message.opcode.isControl ∧ md.message.payload.length ≤ payloadSizeBasic := by
  obtain ⟨hop, hle⟩ := h.control md hmd
  exact ⟨hop, le_of_add_le_left hle⟩

/-- A basic header is copied, and nothing else changes. -/
theorem copyBasicHeaderBytes_frame (m : Processor) (buf : List UInt8) : ∃ h n,
    (m.copyBasicHeaderBytes buf).1 = { m with basicHeader := h, bytesNeeded := n } := by
  unfold copyBasicHeaderBytes
  by_cases h0 : m.bytesNeeded = 0
  · rw [if_pos h0]
    exact ⟨_, _, rfl⟩
  · rw [if_neg h0]
    split
    · exact ⟨_, _, rfl⟩
    · split_ifs <;> exact ⟨_, _, rfl⟩
    · split_ifs <;> exact ⟨_, _, rfl⟩

/-- A change of the headers before the payload is read. -/
theorem Sound.of_headers (h : m.Sound e)
    {b : BasicHeader} {x : ExtendedHeader} {n : ℕ} {s : ProcessorState}
    (hs : s = .headerBasic ∨ s = .headerExtended)
    (hvalid : s = .headerExtended → validateIncomingBasicHeader b e.isServer m.dataMsg.isNone = none) :
    Sound e { m with basicHeader := b, extendedHeader := x, bytesNeeded := n, state := s } where
  running := by rcases hs with rfl | rfl <;> exact ⟨by simp, by simp⟩
  header := hvalid
  current := fun h => by
    rcases hs with rfl | rfl <;> rcases h with h | h <;> cases h
  data := h.data
  control := fun md hmd => by
    obtain ⟨hop, hlen⟩ := h.control md hmd
    refine ⟨hop, ?_⟩
    rcases hs with rfl | rfl <;> simp <;> omega

/-- A valid header of a control frame announces a short payload. -/
theorem getPayloadSize_of_isControl {b : BasicHeader} {isServer newMsg : Bool} (x : ExtendedHeader)
    (hvalid : validateIncomingBasicHeader b isServer newMsg = none) (hop : b.getOpcode.isControl = true) :
    getPayloadSize b x ≤ payloadSizeBasic := by
  have hsize := ((validateIncomingBasicHeader_eq_none.1 hvalid).1 hop).1
  rw [getPayloadSize, if_pos hsize]
  exact hsize

/-- A valid header of the first frame of a data message has the opcode of a text or a binary message. -/
theorem opcode_of_new {b : BasicHeader} {isServer : Bool}
    (hvalid : validateIncomingBasicHeader b isServer true = none) (hop : ¬ b.getOpcode.isControl = true) :
    b.getOpcode = .text ∨ b.getOpcode = .binary := by
  obtain ⟨-, -, -, -, hres, -, hnew, -⟩ := validateIncomingBasicHeader_eq_none.1 hvalid
  have hne : b.getOpcode ≠ .continuation := fun h => (hnew hop).1 h rfl
  revert hop hres hne
  cases b.getOpcode <;> decide

/-! ## Steps -/

/-- A message is found or made for a payload. -/
theorem Sound.startPayload (h : m.Sound e) (hstate : m.state = .headerExtended)
    (hstart : m.startPayload e = .ok m') : m'.Sound e := by
  have hvalid := h.header hstate
  rcases startPayload_ok hstart with ⟨hop, rfl⟩ | ⟨hop, hdata, -, rfl⟩ | ⟨-, md₀, hdata, -, rfl⟩
  · refine ⟨by simp, (nomatch ·), fun _ => rfl, h.data, fun md hmd => ?_⟩
    cases hmd
    refine ⟨hop, ?_⟩
    simp only [and_self, if_true]
    exact (zero_add _).trans_le (getPayloadSize_of_isControl _ hvalid hop)
  · rw [hdata] at hvalid
    refine ⟨by simp, (nomatch ·), fun _ => rfl, fun md hmd => ?_, fun md hmd => ?_⟩
    · cases hmd
      exact ⟨opcode_of_new hvalid hop, MsgMetadata.sound_construct _ _⟩
    · simp only [reduceCtorEq, and_false, if_false]
      exact h.length_control hmd
  · refine ⟨by simp, (nomatch ·), fun _ => rfl, fun md hmd => ?_, fun md hmd => ?_⟩
    · cases hmd
      exact h.data md₀ hdata
    · simp only [reduceCtorEq, and_false, if_false]
      exact h.length_control hmd

/-- Reading some of a payload keeps the invariant. -/
theorem Sound.processPayloadBytes (h : m.Sound e) (hstate : m.state = .application)
    (hlen : buf.length ≤ m.bytesNeeded) (hok : m.processPayloadBytes buf = .ok m') : m'.Sound e := by
  obtain ⟨md, hmd⟩ := Option.isSome_iff_exists.1 (h.current (.inl hstate))
  obtain ⟨md', hres, rfl⟩ := processPayloadBytes_ok hmd hok
  obtain ⟨out, hout, hmessage, -⟩ := MsgMetadata.process_ok hres
  have hstate' : ({ m.setCurrent (some md') with bytesNeeded := m.bytesNeeded - buf.length }).state =
      .application := (state_setCurrent ..).trans hstate
  refine ⟨by simp [hstate], fun h => ?_, fun _ => ?_, fun md₁ hmd₁ => ?_, fun md₁ hmd₁ => ?_⟩
  · rw [hstate'] at h
    cases h
  · exact congrArg Option.isSome (current_setCurrent m (some md'))
  · unfold setCurrent at hmd₁
    cases hcur : m.currentMsg with
    | data =>
      simp only [hcur, Option.mem_some_iff] at hmd₁
      simp only [Processor.current, hcur] at hmd
      obtain ⟨hop, hsound⟩ := h.data md hmd
      rw [← hmd₁]
      exact ⟨by rwa [hmessage], hsound.process hres⟩
    | control =>
      simp only [hcur] at hmd₁
      exact h.data md₁ hmd₁
  · unfold setCurrent at hmd₁ ⊢
    cases hcur : m.currentMsg with
    | data =>
      simp only [hcur] at hmd₁ ⊢
      obtain ⟨hop, hle⟩ := h.control md₁ hmd₁
      simpa [hcur] using And.intro hop hle
    | control =>
      simp only [hcur, Option.mem_some_iff] at hmd₁ ⊢
      simp only [Processor.current, hcur] at hmd
      obtain ⟨hop, hle⟩ := h.control md hmd
      rw [if_pos ⟨hstate, hcur⟩] at hle
      rw [← hmd₁, hmessage, if_pos ⟨hstate, trivial⟩, List.length_append]
      exact ⟨hop, by omega⟩

/-- The end of a frame keeps the invariant. -/
theorem Sound.finishFrame (h : m.Sound e) (hstate : m.state = .application)
    (hok : m.finishFrame = .ok m') : m'.Sound e := by
  unfold Processor.finishFrame finalizeMessage at hok
  split_ifs at hok
  · cases hok
    refine ⟨by simp, (nomatch ·), fun _ => h.current (.inl hstate), h.data, fun md hmd => ?_⟩
    simp only [reduceCtorEq, false_and, if_false]
    exact h.length_control hmd
  · cases hok
    exact (waiting_resetHeaders h.data fun md hmd => h.length_control hmd).toSound

/-- A pass keeps the invariant. -/
theorem Sound.passed (h : m.Sound e) (hpassed : m.Passed e buf m' rest) : m'.Sound e := by
  cases hpassed with
  | basicPart hstate hneed =>
    obtain ⟨b, n, hcopy⟩ := copyBasicHeaderBytes_frame m buf
    rw [hcopy]
    exact h.of_headers (.inl hstate) fun hs => by rw [hstate] at hs; cases hs
  | basic hstate hcopy hneed hvalid =>
    obtain ⟨b, n, hcopy'⟩ := copyBasicHeaderBytes_frame m buf
    rw [hcopy'] at hcopy
    subst hcopy
    exact h.of_headers (.inr rfl) fun _ => hvalid
  | extendedPart hstate hneed => exact h.of_headers (.inr hstate) fun _ => h.header hstate
  | extended hstate hcopy hneed hvalid hstart =>
    subst hcopy
    have hcopied : Sound e (m.copyExtendedHeaderBytes buf).1 :=
      h.of_headers (.inr hstate) fun _ => h.header hstate
    exact hcopied.startPayload hstate hstart
  | extension hstate => exact absurd hstate h.running.1
  | payloadPart hstate hpay hneed =>
    exact h.processPayloadBytes hstate ((List.length_take_le ..).trans (min_le_left ..)) hpay
  | payload hstate hpay hneed hfinish =>
    have hread := h.processPayloadBytes hstate ((List.length_take_le ..).trans (min_le_left ..)) hpay
    exact hread.finishFrame ((state_of_processPayloadBytes hpay).trans hstate) hfinish

/-- The loop keeps the invariant, and at its end a message is ready, or all bytes are read and more are
needed. -/
theorem Sound.consume (h : m.Sound e) (hok : m.consume e buf = .ok (m', rest)) :
    m'.Sound e ∧ (m'.state ≠ .ready → rest = [] ∧ m'.bytesNeeded ≠ 0) := by
  obtain ⟨hsound, hover⟩ := consume_rule (P := fun m _ => m.Sound e) (fun h _ hp => h.passed hp) h hok
  refine ⟨hsound, fun hready => ?_⟩
  by_contra hnot
  refine hover ⟨hready, hsound.running.2, ?_⟩
  by_cases hrest : rest = []
  · exact .inr (not_not.1 fun hneed => hnot ⟨hrest, hneed⟩)
  · exact .inl hrest

/-! ## Messages that are ready -/

/-- The loop has not read all bytes only where a message is ready. -/
theorem Sound.waiting_of_consume (h : m.Sound e) (hok : m.consume e buf = .ok (m', rest))
    (hready : m'.state ≠ .ready) : m'.Waiting e ∧ rest = [] := by
  obtain ⟨hsound, hover⟩ := h.consume hok
  obtain ⟨hrest, hneed⟩ := hover hready
  exact ⟨⟨hsound, hready, hneed⟩, hrest⟩

/-- A message that the processor gives out. -/
def Received (msg : Message) : Prop :=
  (msg.opcode.isControl ∧ msg.payload.length ≤ payloadSizeBasic) ∨ msg.opcode = .binary ∨
    (msg.opcode = .text ∧ (scan [] msg.payload).isSome)

/-- A message that is ready is given out, and the next frame begins. -/
theorem Sound.getMessage (h : m.Sound e) (hready : m.state = .ready) : ∃ md, m.current = some md ∧
    Received md.message ∧ m.getMessage = (some md.message, (m.setCurrent none).resetHeaders) ∧
    ((m.setCurrent none).resetHeaders).Waiting e := by
  obtain ⟨md, hmd⟩ := Option.isSome_iff_exists.1 (h.current (.inr hready))
  refine ⟨md, hmd, ?_⟩
  unfold Processor.getMessage
  rw [if_pos (show m.ready = true from decide_eq_true hready), hmd]
  unfold Processor.current at hmd
  unfold setCurrent
  cases hcur : m.currentMsg with
  | data =>
    simp only [hcur] at hmd ⊢
    obtain ⟨hop, hsound⟩ := h.data md hmd
    have hdata : ¬ md.message.opcode.isControl = true := by
      rcases hop with hop | hop <;> rw [hop] <;> decide
    refine ⟨?_, by simp only [hdata]; rfl, ?_⟩
    · rcases hop with hop | hop
      · obtain ⟨rs, hscan, -⟩ := hsound hop
        exact .inr (.inr ⟨hop, Option.isSome_iff_exists.2 ⟨rs, hscan⟩⟩)
      · exact .inr (.inl hop)
    · exact waiting_resetHeaders (fun md hmd => by cases hmd) fun md hmd => h.length_control hmd
  | control =>
    simp only [hcur] at hmd ⊢
    obtain ⟨hop, hle⟩ := h.length_control hmd
    refine ⟨.inl ⟨hop, hle⟩, by simp only [hop]; rfl, ?_⟩
    exact waiting_resetHeaders h.data fun md hmd => by cases hmd

end Processor

end Typhoon.WebSocket
