import Typhoon.WebSocket.Header
import Typhoon.WebSocket.Validator

/-!
# The processor

`processor::hybi13` of `websocketpp/processors/hybi13.hpp`, the state machine that takes the bytes of a
connection apart into frames, and puts the payloads of the frames together to messages. It is given the bytes
as they arrive: `consume` reads them until a message is complete, and then waits for `get_message`. The
extension `permessage_deflate` is disabled in the configuration of the provider, so no frame is compressed.
-/

namespace Typhoon.WebSocket

/-- The errors of `processor_errors` that a connection can meet. -/
inductive ErrorCode
  | messageTooBig
  | invalidPayload
  | invalidOpcode
  | controlTooBig
  | invalidRsvBit
  | fragmentedControl
  | invalidContinuation
  | maskingRequired
  | maskingForbidden
  | nonMinimalEncoding
  | invalidUtf8
  | reservedCloseCode
  | invalidCloseCode
  | reasonRequiresCode
  deriving DecidableEq

/-- `message`, with the members that a connection reads. -/
structure Message where
  header : List UInt8
  payload : List UInt8
  opcode : Opcode
  fin : Bool
  terminal : Bool
  deriving DecidableEq

/-- The constructor, as `get_message` of the message manager calls it. -/
def Message.construct (op : Opcode) : Message where
  header := []
  payload := []
  opcode := op
  fin := true
  terminal := false

/-- What the code of an endpoint is configured with. -/
structure Endpoint where
  /-- `m_server`. -/
  isServer : Bool
  /-- `m_max_message_size`. -/
  maxMessageSize : ℕ
  /-- The keys that `m_rng` gives, one after another. -/
  rng : ℕ → MaskingKey

/-- `msg_metadata`, where its `msg_ptr` is not null. -/
structure MsgMetadata where
  message : Message
  preparedKey : PreparedKey
  validator : Validator

/-- The constructor from a message and its masking key. -/
def MsgMetadata.construct (m : Message) (key : MaskingKey) : MsgMetadata :=
  ⟨m, prepareMaskingKey key, .construct⟩

/-- `process_payload_bytes` on the metadata of the current message. -/
def MsgMetadata.process (masked : Bool) (buf : List UInt8) (md : MsgMetadata) :
    Except ErrorCode MsgMetadata :=
  let (buf, preparedKey) := if masked then byteMaskCirc buf md.preparedKey else (buf, md.preparedKey)
  let message := { md.message with payload := md.message.payload ++ buf }
  if message.opcode = .text then
    let (validator, valid) := md.validator.decode buf
    if valid then .ok { message, preparedKey, validator } else .error .invalidUtf8
  else .ok { md with message, preparedKey }

/-- No bytes change nothing. -/
theorem MsgMetadata.process_nil (masked : Bool) (md : MsgMetadata) : md.process masked [] = .ok md := by
  obtain ⟨message, preparedKey, validator⟩ := md
  have hkey : (byteMaskCirc [] preparedKey).2 = preparedKey := by
    simp [byteMaskCirc, circshiftPreparedKey]
  cases masked <;> simp [process, byteMaskCirc_nil, Validator.decode]

/-- `state`. -/
inductive ProcessorState
  | headerBasic
  | headerExtended
  | extension
  | application
  | ready
  | fatalError
  deriving DecidableEq

/-- What `m_current_msg` points to. -/
inductive CurrentMsg
  | data
  | control
  deriving DecidableEq

/-- `hybi13`. The count `m_cursor` is the length of the extended header that is read so far. -/
structure Processor where
  basicHeader : BasicHeader
  bytesNeeded : ℕ
  dataMsg : Option MsgMetadata
  controlMsg : Option MsgMetadata
  currentMsg : CurrentMsg
  extendedHeader : ExtendedHeader
  state : ProcessorState

namespace Processor

/-! ## Members -/

/-- The metadata that `m_current_msg` points to. -/
def current (m : Processor) : Option MsgMetadata :=
  match m.currentMsg with
  | .data => m.dataMsg
  | .control => m.controlMsg

/-- A change of the metadata that `m_current_msg` points to. -/
def setCurrent (m : Processor) (md : Option MsgMetadata) : Processor :=
  match m.currentMsg with
  | .data => { m with dataMsg := md }
  | .control => { m with controlMsg := md }

/-- A change of the metadata that `m_current_msg` points to is found there. -/
@[simp] theorem current_setCurrent (m : Processor) (md : Option MsgMetadata) :
    (m.setCurrent md).current = md := by
  unfold current setCurrent
  cases m.currentMsg <;> rfl

/-- A change of the metadata leaves the header. -/
@[simp] theorem basicHeader_setCurrent (m : Processor) (md : Option MsgMetadata) :
    (m.setCurrent md).basicHeader = m.basicHeader := by
  unfold setCurrent
  cases m.currentMsg <;> rfl

/-- A change of the metadata leaves the state. -/
@[simp] theorem state_setCurrent (m : Processor) (md : Option MsgMetadata) :
    (m.setCurrent md).state = m.state := by
  unfold setCurrent
  cases m.currentMsg <;> rfl

/-- `reset_headers`. -/
def resetHeaders (m : Processor) : Processor :=
  { m with
    state := .headerBasic
    bytesNeeded := 2
    basicHeader := ⟨0, 0⟩
    extendedHeader := ⟨[]⟩ }

/-- The constructor. -/
def construct : Processor :=
  resetHeaders ⟨⟨0, 0⟩, 0, none, none, .data, ⟨[]⟩, .headerBasic⟩

/-- `ready`. -/
def ready (m : Processor) : Bool := m.state = .ready

/-- `get_message`: the message that is ready, and what is left. -/
def getMessage (m : Processor) : Option Message × Processor :=
  if m.ready then
    match m.current with
    | some md =>
      let m := m.setCurrent none
      (some md.message, resetHeaders
        (if md.message.opcode.isControl then { m with controlMsg := none } else { m with dataMsg := none }))
    | none => (none, m)
  else (none, m)

/-! ## Headers -/

/-- `copy_basic_header_bytes`: the bytes in the header, and those that are left. -/
def copyBasicHeaderBytes (m : Processor) (buf : List UInt8) : Processor × List UInt8 :=
  if m.bytesNeeded = 0 then (m, buf)
  else
    match buf with
    | [] => (m, [])
    | [b] =>
      if m.bytesNeeded = 2 then
        ({ m with basicHeader := { m.basicHeader with b0 := b }, bytesNeeded := m.bytesNeeded - 1 }, [])
      else
        ({ m with basicHeader := { m.basicHeader with b1 := b }, bytesNeeded := m.bytesNeeded - 1 }, [])
    | b :: c :: rest =>
      if m.bytesNeeded = 2 then
        ({ m with basicHeader := ⟨b, c⟩, bytesNeeded := m.bytesNeeded - 2 }, rest)
      else
        ({ m with basicHeader := { m.basicHeader with b1 := b }, bytesNeeded := m.bytesNeeded - 1 },
          c :: rest)

/-- `copy_extended_header_bytes`: the bytes in the header, and those that are left. -/
def copyExtendedHeaderBytes (m : Processor) (buf : List UInt8) : Processor × List UInt8 :=
  let bytesToRead := min m.bytesNeeded buf.length
  ({ m with
    extendedHeader := ⟨m.extendedHeader.bytes ++ buf.take bytesToRead⟩
    bytesNeeded := m.bytesNeeded - bytesToRead }, buf.drop bytesToRead)

/-- `validate_incoming_basic_header`, without an error where it is `none`. -/
def validateIncomingBasicHeader (h : BasicHeader) (isServer newMsg : Bool) : Option ErrorCode :=
  let op := h.getOpcode
  if op.isControl ∧ payloadSizeBasic < h.getBasicSize.toNat then some .controlTooBig
  else if h.getRsv1 then some .invalidRsvBit
  else if h.getRsv2 ∨ h.getRsv3 then some .invalidRsvBit
  else if op.reserved then some .invalidOpcode
  else if op.invalid then some .invalidOpcode
  else if op.isControl ∧ ¬ h.getFin then some .fragmentedControl
  else if newMsg ∧ op = .continuation then some .invalidContinuation
  else if ¬ newMsg ∧ ¬ op.isControl ∧ op ≠ .continuation then some .invalidContinuation
  else if isServer ∧ ¬ h.getMasked then some .maskingRequired
  else if ¬ isServer ∧ h.getMasked then some .maskingForbidden
  else none

/-- A check gives no error when its condition fails and the other checks give none. -/
theorem check_eq_none {p : Prop} [Decidable p] {ec : ErrorCode} {o : Option ErrorCode} :
    (if p then some ec else o) = none ↔ ¬ p ∧ o = none := by
  by_cases hp : p <;> simp [hp]

/-- A basic header is without an error when none of its parts is wrong. -/
theorem validateIncomingBasicHeader_eq_none {h : BasicHeader} {isServer newMsg : Bool} :
    validateIncomingBasicHeader h isServer newMsg = none ↔
      (h.getOpcode.isControl → h.getBasicSize.toNat ≤ payloadSizeBasic ∧ h.getFin) ∧
      ¬ h.getRsv1 ∧ ¬ h.getRsv2 ∧ ¬ h.getRsv3 ∧ ¬ h.getOpcode.reserved ∧ ¬ h.getOpcode.invalid ∧
      (¬ h.getOpcode.isControl → (h.getOpcode = .continuation ↔ ¬ newMsg)) ∧
      h.getMasked = isServer := by
  simp only [validateIncomingBasicHeader, check_eq_none]
  have hcont : h.getOpcode = .continuation → h.getOpcode.isControl = false := fun h => by rw [h]; rfl
  constructor
  · rintro ⟨hsize, hrsv1, hrsv, hres, hinv, hfin, hnew, hold, hserver, hclient, -⟩
    refine ⟨fun hop => ⟨not_lt.1 fun h => hsize ⟨hop, h⟩, not_not.1 fun h => hfin ⟨hop, h⟩⟩, hrsv1,
      fun h => hrsv (.inl h), fun h => hrsv (.inr h), hres, hinv, fun hop => ⟨fun h hn => hnew ⟨hn, h⟩,
      fun hn => not_not.1 fun h => hold ⟨hn, hop, h⟩⟩, ?_⟩
    cases isServer
    · exact Bool.eq_false_iff.2 fun h => hclient ⟨Bool.false_ne_true, h⟩
    · exact not_not.1 fun h => hserver ⟨rfl, h⟩
  · rintro ⟨hcontrol, hrsv1, hrsv2, hrsv3, hres, hinv, hdata, hmask⟩
    refine ⟨fun h => absurd h.2 (not_lt.2 (hcontrol h.1).1), hrsv1, fun h => h.elim hrsv2 hrsv3, hres, hinv,
      fun h => h.2 (hcontrol h.1).2, fun h => ?_, fun h => h.2.2 ((hdata h.2.1).2 h.1), fun h => ?_,
      fun h => ?_, trivial⟩
    · exact (hdata (by rw [hcont h.2]; decide)).1 h.2 h.1
    · exact h.2 (hmask.trans h.1)
    · exact h.1 (hmask.symm.trans h.2)

/-- `validate_incoming_extended_header`, on a platform with 64 bits. -/
def validateIncomingExtendedHeader (h : BasicHeader) (e : ExtendedHeader) : Option ErrorCode :=
  let basicSize := h.getBasicSize
  let payloadSize := getPayloadSize h e
  if basicSize = payloadSizeCode16bit ∧ payloadSize ≤ payloadSizeBasic then some .nonMinimalEncoding
  else if basicSize = payloadSizeCode64bit ∧ payloadSize ≤ payloadSizeExtended then
    some .nonMinimalEncoding
  else none

/-- What `consume` does after the header of a frame: it finds or makes the message for the payload. -/
def startPayload (e : Endpoint) (m : Processor) : Except ErrorCode Processor :=
  let op := m.basicHeader.getOpcode
  let key := getMaskingKey m.basicHeader m.extendedHeader
  let m := { m with
    state := .application
    bytesNeeded := getPayloadSize m.basicHeader m.extendedHeader }
  if op.isControl then
    .ok { m with controlMsg := some (.construct (.construct op) key), currentMsg := .control }
  else
    match m.dataMsg with
    | none =>
      if e.maxMessageSize < m.bytesNeeded then .error .messageTooBig
      else .ok { m with dataMsg := some (.construct (.construct op) key), currentMsg := .data }
    | some md =>
      -- The sum of the sizes is taken in `size_t`.
      if e.maxMessageSize < (md.message.payload.length + m.bytesNeeded) % 2 ^ 64 then
        .error .messageTooBig
      else
        .ok { m with
          dataMsg := some { md with preparedKey := prepareMaskingKey key }
          currentMsg := .data }

/-! ## Payloads -/

/-- `process_payload_bytes`. -/
def processPayloadBytes (m : Processor) (buf : List UInt8) : Except ErrorCode Processor :=
  match m.current with
  | some md =>
    match MsgMetadata.process m.basicHeader.getMasked buf md with
    | .ok md => .ok { m.setCurrent (some md) with bytesNeeded := m.bytesNeeded - buf.length }
    | .error ec => .error ec
  | none => .ok { m with bytesNeeded := m.bytesNeeded - buf.length }

/-- `finalize_message`. -/
def finalizeMessage (m : Processor) : Except ErrorCode Processor :=
  -- The opcode is that of the last frame, and not that of the message.
  if m.basicHeader.getOpcode = .text ∧ (m.current.any fun md => !md.validator.complete) then
    .error .invalidUtf8
  else .ok { m with state := .ready }

/-- What `consume` does after the payload of a frame. -/
def finishFrame (m : Processor) : Except ErrorCode Processor :=
  if m.basicHeader.getFin then m.finalizeMessage else .ok m.resetHeaders

/-! ## The loop -/

/-- A pass of the loop of `consume` on the bytes that are left. -/
def pass (e : Endpoint) (m : Processor) (buf : List UInt8) :
    Except ErrorCode (Processor × List UInt8) :=
  match m.state with
  | .headerBasic =>
    let (m, buf) := m.copyBasicHeaderBytes buf
    if 0 < m.bytesNeeded then .ok (m, buf)
    else
      match validateIncomingBasicHeader m.basicHeader e.isServer m.dataMsg.isNone with
      | some ec => .error ec
      | none =>
        .ok ({ m with state := .headerExtended, bytesNeeded := m.basicHeader.getHeaderLen - 2 }, buf)
  | .headerExtended =>
    let (m, buf) := m.copyExtendedHeaderBytes buf
    if 0 < m.bytesNeeded then .ok (m, buf)
    else
      match validateIncomingExtendedHeader m.basicHeader m.extendedHeader with
      | some ec => .error ec
      | none =>
        match m.startPayload e with
        | .ok m => .ok (m, buf)
        | .error ec => .error ec
  | .extension => .ok ({ m with state := .application }, buf)
  | .application =>
    let bytesToProcess := min m.bytesNeeded buf.length
    match if 0 < bytesToProcess then m.processPayloadBytes (buf.take bytesToProcess) else .ok m with
    | .error ec => .error ec
    | .ok m =>
      if 0 < m.bytesNeeded then .ok (m, buf.drop bytesToProcess)
      else
        match m.finishFrame with
        | .ok m => .ok (m, buf.drop bytesToProcess)
        | .error ec => .error ec
  | .ready => .ok (m, buf)
  | .fatalError => .ok (m, buf)

/-- The condition of the loop of `consume`. -/
def Continues (m : Processor) (buf : List UInt8) : Prop :=
  m.state ≠ .ready ∧ m.state ≠ .fatalError ∧ (buf ≠ [] ∨ m.bytesNeeded = 0)

/-- The condition is evaluated as the loop does. -/
instance (m : Processor) (buf : List UInt8) : Decidable (m.Continues buf) :=
  inferInstanceAs (Decidable (_ ∧ _ ∧ _))

/-- How many passes can come before the next byte is read. -/
def rank (m : Processor) : ℕ :=
  match m.state with
  | .headerBasic => if m.bytesNeeded = 0 then 3 else 0
  | .headerExtended => 2
  | .extension => 2
  | .application => 1
  | .ready => 0
  | .fatalError => 0

/-- There are at most three passes to the next byte. -/
theorem rank_le (m : Processor) : m.rank ≤ 3 := by
  unfold rank
  cases m.state <;> dsimp only <;> (try split_ifs) <;> decide

/-- Bytes are taken for the basic header where some are needed. -/
theorem length_copyBasicHeaderBytes {m : Processor} {buf : List UInt8} (h : 0 < m.bytesNeeded)
    (hbuf : buf ≠ []) : (m.copyBasicHeaderBytes buf).2.length < buf.length := by
  unfold copyBasicHeaderBytes
  rw [if_neg h.ne']
  match buf with
  | [] => exact absurd rfl hbuf
  | [_] =>
    dsimp only
    split_ifs <;> simp
  | _ :: _ :: _ =>
    dsimp only
    split_ifs <;> simp only [List.length_cons] <;> omega

/-- No bytes are taken where none are needed. -/
theorem copyBasicHeaderBytes_zero {m : Processor} (h : m.bytesNeeded = 0) (buf : List UInt8) :
    m.copyBasicHeaderBytes buf = (m, buf) := if_pos h

/-- What is left after as many bytes as are needed and there. -/
theorem length_drop_lt {needed : ℕ} {buf : List UInt8} (h : 0 < needed) (hbuf : buf ≠ []) :
    (buf.drop (min needed buf.length)).length < buf.length := by
  have hpos := List.length_pos_iff.2 hbuf
  rw [List.length_drop]
  omega

/-- What comes after a header: a control message, a new data message, or more of the data message. -/
theorem startPayload_ok {e : Endpoint} {m m' : Processor} (h : m.startPayload e = .ok m') :
    let op := m.basicHeader.getOpcode
    let key := getMaskingKey m.basicHeader m.extendedHeader
    let size := getPayloadSize m.basicHeader m.extendedHeader
    (op.isControl ∧ m' = { m with
      state := .application
      bytesNeeded := size
      controlMsg := some (.construct (.construct op) key)
      currentMsg := .control }) ∨
    (¬ op.isControl ∧ m.dataMsg = none ∧ size ≤ e.maxMessageSize ∧ m' = { m with
      state := .application
      bytesNeeded := size
      dataMsg := some (.construct (.construct op) key)
      currentMsg := .data }) ∨
    (¬ op.isControl ∧ ∃ md, m.dataMsg = some md ∧
      (md.message.payload.length + size) % 2 ^ 64 ≤ e.maxMessageSize ∧ m' = { m with
        state := .application
        bytesNeeded := size
        dataMsg := some { md with preparedKey := prepareMaskingKey key }
        currentMsg := .data }) := by
  unfold startPayload at h
  dsimp only at h ⊢
  split at h
  · rename_i hop
    cases h
    exact .inl ⟨hop, rfl⟩
  · rename_i hop
    split at h
    · rename_i hdata
      split at h
      · cases h
      · rename_i hsize
        cases h
        exact .inr (.inl ⟨hop, hdata, not_lt.1 hsize, rfl⟩)
    · rename_i md hdata
      split at h
      · cases h
      · rename_i hsize
        cases h
        exact .inr (.inr ⟨hop, md, hdata, not_lt.1 hsize, rfl⟩)

/-- The payload comes after the header. -/
theorem state_of_startPayload {e : Endpoint} {m m' : Processor} (h : m.startPayload e = .ok m') :
    m'.state = .application := by
  rcases startPayload_ok h with ⟨-, rfl⟩ | ⟨-, -, -, rfl⟩ | ⟨-, -, -, -, rfl⟩ <;> rfl

/-- After a frame, a message is ready or the next header comes. -/
theorem rank_of_finishFrame {m m' : Processor} (h : m.finishFrame = .ok m') : m'.rank = 0 := by
  unfold finishFrame finalizeMessage at h
  split_ifs at h
  · cases h
    rfl
  · cases h
    rfl

/-- No bytes of a payload change nothing. -/
theorem processPayloadBytes_nil (m : Processor) : m.processPayloadBytes [] = .ok m := by
  unfold processPayloadBytes
  cases hcur : m.current with
  | none => rfl
  | some md =>
    have hset : m.setCurrent (some md) = m := by
      unfold current at hcur
      unfold setCurrent
      obtain ⟨basicHeader, bytesNeeded, dataMsg, controlMsg, currentMsg, extendedHeader, state⟩ := m
      cases currentMsg <;> dsimp only at hcur ⊢ <;> rw [← hcur]
    simp only [MsgMetadata.process_nil, hset]
    rfl

/-- The ways in which a pass goes without an error. -/
inductive Passed (e : Endpoint) (m : Processor) (buf : List UInt8) : Processor → List UInt8 → Prop
  | basicPart (hstate : m.state = .headerBasic) (hneed : 0 < (m.copyBasicHeaderBytes buf).1.bytesNeeded) :
    Passed e m buf (m.copyBasicHeaderBytes buf).1 (m.copyBasicHeaderBytes buf).2
  | basic {m₁ : Processor} (hstate : m.state = .headerBasic)
    (hcopy : (m.copyBasicHeaderBytes buf).1 = m₁) (hneed : m₁.bytesNeeded = 0)
    (hvalid : validateIncomingBasicHeader m₁.basicHeader e.isServer m₁.dataMsg.isNone = none) :
    Passed e m buf
      { m₁ with state := .headerExtended, bytesNeeded := m₁.basicHeader.getHeaderLen - 2 }
      (m.copyBasicHeaderBytes buf).2
  | extendedPart (hstate : m.state = .headerExtended)
    (hneed : 0 < (m.copyExtendedHeaderBytes buf).1.bytesNeeded) :
    Passed e m buf (m.copyExtendedHeaderBytes buf).1 (m.copyExtendedHeaderBytes buf).2
  | extended {m₁ m' : Processor} (hstate : m.state = .headerExtended)
    (hcopy : (m.copyExtendedHeaderBytes buf).1 = m₁) (hneed : m₁.bytesNeeded = 0)
    (hvalid : validateIncomingExtendedHeader m₁.basicHeader m₁.extendedHeader = none)
    (hstart : m₁.startPayload e = .ok m') : Passed e m buf m' (m.copyExtendedHeaderBytes buf).2
  | extension (hstate : m.state = .extension) : Passed e m buf { m with state := .application } buf
  | payloadPart {m₁ : Processor} (hstate : m.state = .application)
    (hpay : m.processPayloadBytes (buf.take (min m.bytesNeeded buf.length)) = .ok m₁)
    (hneed : 0 < m₁.bytesNeeded) : Passed e m buf m₁ (buf.drop (min m.bytesNeeded buf.length))
  | payload {m₁ m' : Processor} (hstate : m.state = .application)
    (hpay : m.processPayloadBytes (buf.take (min m.bytesNeeded buf.length)) = .ok m₁)
    (hneed : m₁.bytesNeeded = 0) (hfinish : m₁.finishFrame = .ok m') :
    Passed e m buf m' (buf.drop (min m.bytesNeeded buf.length))

/-- The bytes of a payload that a pass takes can be none. -/
theorem processPayloadBytes_take (m : Processor) (buf : List UInt8) (n : ℕ) :
    (if 0 < n then m.processPayloadBytes (buf.take n) else .ok m) = m.processPayloadBytes (buf.take n) := by
  split_ifs with hpos
  · rfl
  · rw [Nat.eq_zero_of_not_pos hpos, List.take_zero, processPayloadBytes_nil]

/-- A pass without an error goes in one of these ways. -/
theorem passed_of_pass {e : Endpoint} {m m' : Processor} {buf rest : List UInt8} (hc : m.Continues buf)
    (h : m.pass e buf = .ok (m', rest)) : m.Passed e buf m' rest := by
  obtain ⟨hready, hfatal, -⟩ := hc
  unfold pass at h
  cases hstate : m.state with
  | headerBasic =>
    simp only [hstate] at h
    split_ifs at h with hneed
    · cases h
      exact .basicPart hstate hneed
    · split at h
      · cases h
      · rename_i hvalid
        cases h
        exact .basic hstate rfl (Nat.eq_zero_of_not_pos hneed) hvalid
  | headerExtended =>
    simp only [hstate] at h
    split_ifs at h with hneed
    · cases h
      exact .extendedPart hstate hneed
    · split at h
      · cases h
      · rename_i hvalid
        split at h
        · rename_i hstart
          cases h
          exact .extended hstate rfl (Nat.eq_zero_of_not_pos hneed) hvalid hstart
        · cases h
  | extension =>
    simp only [hstate] at h
    cases h
    exact .extension hstate
  | application =>
    simp only [hstate, processPayloadBytes_take] at h
    split at h
    · cases h
    · rename_i hpay
      split_ifs at h with hneed
      · cases h
        exact .payloadPart hstate hpay hneed
      · split at h
        · rename_i hfinish
          cases h
          exact .payload hstate hpay (Nat.eq_zero_of_not_pos hneed) hfinish
        · cases h
  | ready => exact absurd hstate hready
  | fatalError => exact absurd hstate hfatal

/-- The payload is put into the message that `m_current_msg` points to. -/
theorem processPayloadBytes_ok {m m' : Processor} {md : MsgMetadata} {buf : List UInt8}
    (hmd : m.current = some md) (h : m.processPayloadBytes buf = .ok m') :
    ∃ md', md.process m.basicHeader.getMasked buf = .ok md' ∧
      m' = { m.setCurrent (some md') with bytesNeeded := m.bytesNeeded - buf.length } := by
  unfold processPayloadBytes at h
  rw [hmd] at h
  dsimp only at h
  split at h
  · rename_i md' hres
    cases h
    exact ⟨md', hres, rfl⟩
  · cases h

/-- How many bytes are needed after some of a payload. -/
theorem bytesNeeded_of_processPayloadBytes {m m' : Processor} {buf : List UInt8}
    (h : m.processPayloadBytes buf = .ok m') : m'.bytesNeeded = m.bytesNeeded - buf.length := by
  unfold processPayloadBytes at h
  split at h
  · split at h <;> cases h
    rfl
  · cases h
    rfl

/-- The state stays while a payload is read. -/
theorem state_of_processPayloadBytes {m m' : Processor} {buf : List UInt8}
    (h : m.processPayloadBytes buf = .ok m') : m'.state = m.state := by
  unfold processPayloadBytes at h
  split at h
  · split at h <;> cases h
    exact state_setCurrent ..
  · cases h
    rfl

/-- A pass takes bytes where some are needed. -/
theorem Passed.length_lt {e : Endpoint} {m m' : Processor} {buf rest : List UInt8}
    (h : m.Passed e buf m' rest) (hstate : m.state ≠ .extension) (hneed : m.bytesNeeded ≠ 0)
    (hbuf : buf ≠ []) : rest.length < buf.length := by
  have hpos := Nat.pos_of_ne_zero hneed
  cases h with
  | basicPart _ _ => exact length_copyBasicHeaderBytes hpos hbuf
  | basic _ _ _ _ => exact length_copyBasicHeaderBytes hpos hbuf
  | extendedPart _ _ => exact length_drop_lt hpos hbuf
  | extended _ _ _ _ _ => exact length_drop_lt hpos hbuf
  | extension hext => exact absurd hext hstate
  | payloadPart _ _ _ => exact length_drop_lt hpos hbuf
  | payload _ _ _ _ => exact length_drop_lt hpos hbuf

/-- Where none are needed, it takes none, and fewer passes are left. -/
theorem Passed.rank_lt {e : Endpoint} {m m' : Processor} {buf rest : List UInt8}
    (h : m.Passed e buf m' rest) (hneed : m.bytesNeeded = 0 ∨ m.state = .extension) :
    rest = buf ∧ m'.rank < m.rank := by
  cases h with
  | basicPart hstate hpos =>
    have h0 := hneed.resolve_right (by rw [hstate]; decide)
    rw [copyBasicHeaderBytes_zero h0] at hpos
    exact absurd hpos (by simp [h0])
  | basic hstate hcopy _ _ =>
    have h0 := hneed.resolve_right (by rw [hstate]; decide)
    rw [copyBasicHeaderBytes_zero h0]
    exact ⟨rfl, by simp [rank, hstate, h0]⟩
  | extendedPart hstate hpos =>
    have h0 := hneed.resolve_right (by rw [hstate]; decide)
    exact absurd hpos (by simp [copyExtendedHeaderBytes, h0])
  | extended hstate hcopy _ _ hstart =>
    have h0 := hneed.resolve_right (by rw [hstate]; decide)
    refine ⟨by rw [copyExtendedHeaderBytes, h0, Nat.zero_min, List.drop_zero], ?_⟩
    rw [rank, rank, hstate, state_of_startPayload hstart]
    exact Nat.one_lt_two
  | extension hstate => exact ⟨rfl, by simp [rank, hstate]⟩
  | payloadPart hstate hpay hpos =>
    have h0 := hneed.resolve_right (by rw [hstate]; decide)
    rw [bytesNeeded_of_processPayloadBytes hpay, h0, Nat.zero_sub] at hpos
    exact absurd hpos (lt_irrefl 0)
  | payload hstate _ _ hfinish =>
    have h0 := hneed.resolve_right (by rw [hstate]; decide)
    refine ⟨by rw [h0, Nat.zero_min, List.drop_zero], ?_⟩
    rw [rank_of_finishFrame hfinish, rank, hstate]
    exact one_pos

/-- A pass leaves no more bytes than there are. -/
theorem Passed.length_le {e : Endpoint} {m m' : Processor} {buf rest : List UInt8}
    (h : m.Passed e buf m' rest) (hc : m.Continues buf) : rest.length ≤ buf.length := by
  by_cases hnone : m.bytesNeeded = 0 ∨ m.state = .extension
  · exact (congrArg List.length (h.rank_lt hnone).1).le
  · obtain ⟨hneed, hext⟩ := not_or.1 hnone
    exact (h.length_lt hext hneed (hc.2.2.resolve_right hneed)).le

/-- Every pass takes bytes, or brings the next byte nearer. -/
theorem pass_lt {e : Endpoint} {m m' : Processor} {buf rest : List UInt8} (hc : m.Continues buf)
    (h : m.pass e buf = .ok (m', rest)) :
    4 * rest.length + m'.rank < 4 * buf.length + m.rank := by
  have hpassed := passed_of_pass hc h
  have hrank := m'.rank_le
  by_cases hnone : m.bytesNeeded = 0 ∨ m.state = .extension
  · obtain ⟨hrest, hlt⟩ := hpassed.rank_lt hnone
    rw [hrest]
    omega
  · obtain ⟨hneed, hext⟩ := not_or.1 hnone
    have hlt := hpassed.length_lt hext hneed (hc.2.2.resolve_right hneed)
    omega

/-- The loop of `consume`: the bytes that are left when it comes to its end. -/
def consume (e : Endpoint) (m : Processor) (buf : List UInt8) :
    Except ErrorCode (Processor × List UInt8) :=
  if hc : m.Continues buf then
    match h : m.pass e buf with
    | .error ec => .error ec
    | .ok (m', rest) =>
      have : 4 * rest.length + m'.rank < 4 * buf.length + m.rank := pass_lt hc h
      consume e m' rest
  else .ok (m, buf)
termination_by 4 * buf.length + m.rank

section Consume

variable {e : Endpoint} {m m' : Processor} {buf rest : List UInt8}

/-- The loop is over where its condition fails. -/
theorem consume_of_not_continues (hc : ¬ m.Continues buf) : m.consume e buf = .ok (m, buf) := by
  rw [consume, dif_neg hc]

/-- The loop goes on after a pass. -/
theorem consume_of_pass (hc : m.Continues buf) (h : m.pass e buf = .ok (m', rest)) :
    m.consume e buf = m'.consume e rest := by
  rw [consume, dif_pos hc]
  split
  · rename_i herror
    rw [h] at herror
    cases herror
  · rename_i hok
    rw [h] at hok
    cases hok
    rfl

/-- An error in a pass ends the loop. -/
theorem consume_of_pass_error {ec : ErrorCode} (hc : m.Continues buf) (h : m.pass e buf = .error ec) :
    m.consume e buf = .error ec := by
  rw [consume, dif_pos hc]
  split
  · rename_i herror
    rw [h] at herror
    cases herror
    rfl
  · rename_i hok
    rw [h] at hok
    cases hok

end Consume

/-- What holds of a processor and the bytes that are left, and is kept by every pass, holds at the end of the
loop. -/
theorem consume_rule {e : Endpoint} {P : Processor → List UInt8 → Prop}
    (hpass : ∀ {m buf m' rest}, P m buf → m.Continues buf → m.Passed e buf m' rest → P m' rest)
    {m m' : Processor} {buf rest : List UInt8} (hm : P m buf) (h : m.consume e buf = .ok (m', rest)) :
    P m' rest ∧ ¬ m'.Continues rest := by
  by_cases hc : m.Continues buf
  · cases hres : m.pass e buf with
    | error ec =>
      rw [consume_of_pass_error hc hres] at h
      cases h
    | ok r =>
      have hlt := pass_lt hc hres
      rw [consume_of_pass hc hres] at h
      exact consume_rule hpass (hpass hm hc (passed_of_pass hc hres)) h
  · rw [consume_of_not_continues hc] at h
    cases h
    exact ⟨hm, hc⟩
termination_by 4 * buf.length + m.rank

end Processor

end Typhoon.WebSocket
