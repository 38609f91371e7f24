import Typhoon.WebSocket.Processor

/-!
# Sessions

What `websocketpp/impl/connection_impl.hpp` does with the messages that the processor of a connection gets, once
the connection is open. A data message goes to the message handler, a ping is answered with a pong, and a close
frame or an error of the processor with a close frame. The frames that are sent are kept in the order in which
`write_push` queues them. The configuration is that of the provider: no close is silent, no connection is dropped
without a close frame, and there are no handlers for pings and pongs.
-/

namespace Typhoon.WebSocket

/-! ## Errors and close codes -/

/-- The text of an error as bytes. -/
def textBytes (s : String) : List UInt8 := s.toList.map Char.toUInt8

namespace ErrorCode

/-- `processor_category::message`. -/
def message : ErrorCode → String
  | messageTooBig => "A message was too large"
  | invalidPayload => "A payload contained invalid data"
  | invalidOpcode => "invalid opcode"
  | controlTooBig => "Control messages are limited to fewer than 125 characters"
  | invalidRsvBit => "Invalid use of reserved bits"
  | fragmentedControl => "Control messages cannot be fragmented"
  | invalidContinuation => "Invalid message continuation"
  | maskingRequired => "Clients may not send unmasked frames"
  | maskingForbidden => "Servers may not send masked frames"
  | nonMinimalEncoding => "Payload length was not minimally encoded"
  | invalidUtf8 => "Invalid UTF8 encoding"
  | reservedCloseCode => "Reserved close code used"
  | invalidCloseCode => "Invalid close code used"
  | reasonRequiresCode => "Using a close reason requires a valid close code"

/-- `to_ws`. -/
def toWs : ErrorCode → UInt16
  | controlTooBig => 1002
  | invalidOpcode => 1002
  | invalidRsvBit => 1002
  | fragmentedControl => 1002
  | invalidContinuation => 1002
  | maskingRequired => 1002
  | maskingForbidden => 1002
  | reservedCloseCode => 1002
  | invalidCloseCode => 1002
  | invalidPayload => 1007
  | invalidUtf8 => 1007
  | messageTooBig => 1009
  | _ => 1011

end ErrorCode

/-- `close::status::blank`. -/
abbrev blank : UInt16 := 0

/-- `close::status::normal`. -/
abbrev normal : UInt16 := 1000

/-- `close::status::protocol_error`. -/
abbrev protocolError : UInt16 := 1002

/-- `close::status::no_status`. -/
abbrev noStatus : UInt16 := 1005

/-- `close::status::reserved`. -/
def reserved (code : UInt16) : Bool := (1016 ≤ code && code ≤ 2999) || code = 1004

/-- `close::status::invalid`. -/
def invalid (code : UInt16) : Bool :=
  code ≤ 999 || 5000 ≤ code || code = noStatus || code = 1006 || code = 1015

/-- `close::status::terminal`. -/
def terminal (code : UInt16) : Bool :=
  code = protocolError || code = 1007 || code = 1008 || code = 1009 || code = 1011

/-- `close::extract_code`: the code, and whether there is an error. -/
def extractCode (payload : List UInt8) : UInt16 × Bool :=
  match payload with
  | [] => (noStatus, false)
  | [_] => (protocolError, true)
  | b :: c :: _ =>
    let code := UInt16.ofNat (BigEndian.ofBytes [b, c])
    (code, invalid code || reserved code)

/-- `close::extract_reason`: the reason, and whether there is an error. -/
def extractReason (payload : List UInt8) : List UInt8 × Bool :=
  (payload.drop 2, !Validator.validate (payload.drop 2))

/-! ## Frames to send -/

/-- The header of a frame that is sent. -/
def writeHeader (e : Endpoint) (op : Opcode) (size : ℕ) (fin : Bool) (key : MaskingKey) : List UInt8 :=
  prepareHeader (.construct op size fin (!e.isServer) false false false)
    (.construct size (if e.isServer then none else some key))

/-- The payload of a frame that is sent, masked by a client. -/
def writePayload (e : Endpoint) (payload : List UInt8) (key : MaskingKey) : List UInt8 :=
  if e.isServer then payload else byteMask payload key

/-- `prepare_control`. -/
def prepareControl (e : Endpoint) (op : Opcode) (payload : List UInt8) (key : MaskingKey) :
    Except ErrorCode Message :=
  if ¬ op.isControl then .error .invalidOpcode
  else if payloadSizeBasic < payload.length then .error .controlTooBig
  else
    .ok { Message.construct op with
      header := writeHeader e op payload.length true key
      payload := writePayload e payload key }

/-- `prepare_close`. -/
def prepareClose (e : Endpoint) (code : UInt16) (reason : List UInt8) (key : MaskingKey) :
    Except ErrorCode Message :=
  if reserved code then .error .reservedCloseCode
  else if invalid code ∧ code ≠ noStatus then .error .invalidCloseCode
  else if code = noStatus ∧ 0 < reason.length then .error .reasonRequiresCode
  else if payloadSizeBasic - 2 < reason.length then .error .controlTooBig
  else
    prepareControl e .close
      (if code ≠ noStatus then BigEndian.toBytes 2 code.toNat ++ reason else []) key

/-- `prepare_data_frame`. -/
def prepareDataFrame (e : Endpoint) (msg : Message) (key : MaskingKey) : Except ErrorCode Message :=
  if msg.opcode.isControl then .error .invalidOpcode
  else if msg.opcode = .text ∧ ¬ Validator.validate msg.payload then .error .invalidPayload
  else
    .ok { Message.construct msg.opcode with
      header := writeHeader e msg.opcode msg.payload.length msg.fin key
      payload := writePayload e msg.payload key }

/-- What `write_frame` puts into `m_send_buffer` for messages. -/
def sendBuffer (msgs : List Message) : List UInt8 := msgs.flatMap fun msg => msg.header ++ msg.payload

/-! ## Sessions -/

/-- `session::state::value`, from the end of the handshake on. -/
inductive SessionState
  | open
  | closing
  | closed
  deriving DecidableEq

/-- The members of `connection` but for its processor. -/
structure Session where
  state : SessionState
  wasClean : Bool
  remoteCloseCode : UInt16
  remoteCloseReason : List UInt8
  /-- How many keys were taken from `m_rng`. -/
  drawn : ℕ
  /-- The messages that `write_push` has queued, those that are written already included. -/
  sent : List Message
  /-- Whether every read so far was followed by `read_frame`. -/
  reading : Bool

namespace Session

/-- A session at the end of the handshake. -/
def start : Session where
  state := .open
  wasClean := false
  remoteCloseCode := 1006
  remoteCloseReason := []
  drawn := 0
  sent := []
  reading := true

/-- `write_push` of a message that was prepared, by a client with one more key. -/
def writePush (e : Endpoint) (c : Session) (msg : Message) : Session :=
  { c with sent := c.sent ++ [msg], drawn := if e.isServer then c.drawn else c.drawn + 1 }

/-- `pong`. -/
def pong (e : Endpoint) (c : Session) (payload : List UInt8) : Session :=
  if c.state ≠ .open then c
  else
    match prepareControl e .pong payload (e.rng c.drawn) with
    | .ok msg => c.writePush e msg
    | .error _ => c

/-- `send_close_frame`, and whether it returns an error. -/
def sendCloseFrame (e : Endpoint) (c : Session) (code : UInt16) (reason : List UInt8)
    (ack terminal : Bool) : Session × Bool :=
  let (localCloseCode, localCloseReason) :=
    if code ≠ blank then (code, reason)
    else if ¬ ack then (noStatus, [])
    else if c.remoteCloseCode = noStatus then (normal, [])
    else (c.remoteCloseCode, c.remoteCloseReason)
  match prepareClose e localCloseCode localCloseReason (e.rng c.drawn) with
  | .error _ => (c, true)
  | .ok msg =>
    ({ c.writePush e { msg with terminal } with
      state := .closing
      wasClean := c.wasClean || ack }, false)

/-- `send_close_ack`. -/
def sendCloseAck (e : Endpoint) (c : Session) (code : UInt16) (reason : List UInt8) :
    Session × Bool :=
  c.sendCloseFrame e code reason true e.isServer

/-- `close`, and whether it sets an error. -/
def close (e : Endpoint) (c : Session) (code : UInt16) (reason : List UInt8) : Session × Bool :=
  if c.state ≠ .open then (c, true)
  else c.sendCloseFrame e code (reason.take 123) false (WebSocket.terminal code)

/-- `terminate`. -/
def terminate (c : Session) : Session := { c with state := .closed }

/-- The part of `process_control_frame` for a close frame. -/
def processClose (e : Endpoint) (c : Session) (payload : List UInt8) : Session :=
  let (code, bad) := extractCode payload
  let c := { c with remoteCloseCode := code }
  if bad then (c.sendCloseAck e protocolError (textBytes "Invalid close code")).1
  else
    let (reason, bad) := extractReason payload
    let c := { c with remoteCloseReason := reason }
    if bad then (c.sendCloseAck e protocolError (textBytes "Invalid close reason")).1
    else if c.state = .open then (c.sendCloseAck e blank []).1
    else if c.state = .closing ∧ ¬ c.wasClean then
      let c := { c with wasClean := true }
      if e.isServer then c.terminate else c
    else c

/-- `process_control_frame`. -/
def processControlFrame (e : Endpoint) (c : Session) (msg : Message) : Session :=
  if c.state = .closed then c
  else if msg.opcode ≠ .close ∧ c.state ≠ .open then c
  else if msg.opcode = .ping then c.pong e msg.payload
  else if msg.opcode = .pong then c
  else if msg.opcode = .close then c.processClose e msg.payload
  else c

/-- What `handle_read_frame` does with a message: the message handler is called with those listed. -/
def receive (e : Endpoint) (c : Session) (msg : Message) : Session × List Message :=
  if ¬ msg.opcode.isControl then
    if c.state ≠ .open then (c, []) else (c, [msg])
  else (c.processControlFrame e msg, [])

/-- What `handle_read_frame` does with messages, one after another. -/
def receiveAll (e : Endpoint) (c : Session) : List Message → Session × List Message
  | [] => (c, [])
  | msg :: msgs =>
    let (c, handled) := c.receive e msg
    let (c, handled') := receiveAll e c msgs
    (c, handled ++ handled')

/-- What `handle_read_frame` does with an error of the processor: it does not go on to `read_frame`. -/
def fail (e : Endpoint) (c : Session) (ec : ErrorCode) : Session :=
  let (c, failed) := c.close e ec.toWs (textBytes ec.message)
  if failed then c.terminate else { c with reading := false }

/-! ## What a session keeps -/

variable {e : Endpoint} {c : Session}

/-- A close frame that is sent is queued after all that was queued before. -/
theorem sent_sendCloseFrame {sent : List Message} (h : c.sent = sent) (e : Endpoint) (code : UInt16)
    (reason : List UInt8) (ack terminal : Bool) :
    sent <+: (c.sendCloseFrame e code reason ack terminal).1.sent := by
  subst h
  unfold sendCloseFrame
  dsimp only
  generalize prepareClose e _ _ _ = res
  cases res with
  | error ec => exact List.prefix_rfl
  | ok msg => exact List.prefix_append _ _

/-- What a close frame makes a session send is queued after all that was queued before. -/
theorem sent_processClose (e : Endpoint) (c : Session) (payload : List UInt8) :
    c.sent <+: (c.processClose e payload).sent := by
  unfold processClose sendCloseAck
  dsimp only
  split_ifs
  · refine sent_sendCloseFrame ?_ ..
    rfl
  · refine sent_sendCloseFrame ?_ ..
    rfl
  · refine sent_sendCloseFrame ?_ ..
    rfl
  all_goals exact List.prefix_rfl

/-- What a message makes a session send is queued after all that was queued before. -/
theorem sent_receive (e : Endpoint) (c : Session) (msg : Message) : c.sent <+: (c.receive e msg).1.sent := by
  unfold receive processControlFrame
  split_ifs
  any_goals exact List.prefix_rfl
  · unfold pong
    split_ifs
    · exact List.prefix_rfl
    · split
      · exact List.prefix_append _ _
      · exact List.prefix_rfl
  · exact sent_processClose ..

/-- What an error makes a session send is queued after all that was queued before. -/
theorem sent_fail (e : Endpoint) (c : Session) (ec : ErrorCode) : c.sent <+: (c.fail e ec).sent := by
  have hclose : c.sent <+: (c.close e ec.toWs (textBytes ec.message)).1.sent := by
    unfold close
    split_ifs
    · exact List.prefix_rfl
    · exact sent_sendCloseFrame rfl ..
  unfold fail
  dsimp only
  split_ifs <;> exact hclose

/-- Messages that are received in two pieces. -/
theorem receiveAll_append (e : Endpoint) (c : Session) (msgs msgs' : List Message) :
    c.receiveAll e (msgs ++ msgs') =
      (((c.receiveAll e msgs).1.receiveAll e msgs').1,
        (c.receiveAll e msgs).2 ++ ((c.receiveAll e msgs).1.receiveAll e msgs').2) := by
  induction msgs generalizing c with
  | nil => rfl
  | cons msg msgs ih => simp only [List.cons_append, receiveAll, ih, List.append_assoc]

/-- A message does nothing to a session that is closed. -/
theorem receive_closed (h : c.state = .closed) (msg : Message) : c.receive e msg = (c, []) := by
  have hopen : c.state ≠ .open := by rw [h]; decide
  rw [receive, processControlFrame, if_pos h, if_pos hopen, ite_self]

/-- Messages do nothing to a session that is closed, and none of them is handled. -/
theorem receiveAll_closed (h : c.state = .closed) (msgs : List Message) : c.receiveAll e msgs = (c, []) := by
  induction msgs with
  | nil => rfl
  | cons msg msgs ih => simp only [receiveAll, receive_closed h, ih, List.append_nil]

/-- An error does nothing to a session that is closed. -/
theorem fail_closed (h : c.state = .closed) (ec : ErrorCode) : c.fail e ec = c := by
  have hopen : c.state ≠ .open := by rw [h]; decide
  unfold fail close
  rw [if_pos hopen]
  show c.terminate = c
  rw [terminate, ← h]

/-- After an error of the processor nothing more is read. -/
theorem fail_not_reading (e : Endpoint) (c : Session) (ec : ErrorCode) :
    ¬ ((c.fail e ec).reading = true ∧ (c.fail e ec).state ≠ .closed) := by
  unfold fail
  dsimp only
  split_ifs
  · exact fun h => h.2 rfl
  · simp

/-- Sending a close frame does not stop the reads. -/
theorem reading_sendCloseFrame (e : Endpoint) (c : Session) (code : UInt16) (reason : List UInt8)
    (ack terminal : Bool) : (c.sendCloseFrame e code reason ack terminal).1.reading = c.reading := by
  unfold sendCloseFrame
  dsimp only
  generalize prepareClose e _ _ _ = res
  cases res <;> rfl

/-- Receiving a message does not stop the reads. -/
theorem reading_receive (e : Endpoint) (c : Session) (msg : Message) :
    (c.receive e msg).1.reading = c.reading := by
  unfold receive processControlFrame
  split_ifs
  any_goals rfl
  · unfold pong
    split_ifs
    · rfl
    · split <;> rfl
  · unfold processClose sendCloseAck
    dsimp only
    split_ifs <;> first | rfl | exact reading_sendCloseFrame ..

/-- Receiving any number of messages does not stop the reads. -/
theorem reading_receiveAll (e : Endpoint) (c : Session) (msgs : List Message) :
    (c.receiveAll e msgs).1.reading = c.reading := by
  induction msgs generalizing c with
  | nil => rfl
  | cons msg msgs ih => exact (ih _).trans (reading_receive ..)

end Session

end Typhoon.WebSocket
