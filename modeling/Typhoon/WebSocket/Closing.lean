import Typhoon.WebSocket.Session
import Typhoon.WebSocket.Sound

/-!
# What a session answers

The frames that a session sends are determined by the messages that it receives. Before the first close frame,
every ping is answered with a pong of the same payload; the close frame itself is answered with its own bytes, or
with a normal close where it has none, or with a protocol error where they are bad; after it, only close frames
with bad bytes are answered, each with one more close frame. `receiveAll_open` states this of any list of
messages, and that the data messages before the first close frame are those that the message handler gets.
-/

namespace Typhoon.WebSocket

/-! ## Replies -/

/-- A control frame that a session sends. -/
structure Reply where
  opcode : Opcode
  payload : List UInt8
  terminal : Bool

/-- The frame of a reply with a masking key. -/
def Reply.frame (e : Endpoint) (key : MaskingKey) (r : Reply) : Message :=
  { Message.construct r.opcode with
    header := writeHeader e r.opcode r.payload.length true key
    payload := writePayload e r.payload key
    terminal := r.terminal }

/-- The frames of replies one after another. -/
def frames (e : Endpoint) (rs : List Reply) : List Message := rs.mapIdx fun i r => r.frame e (e.rng i)

/-- The payload of a close frame with a code and a reason. -/
def closeBytes (code : UInt16) (reason : List UInt8) : List UInt8 :=
  BigEndian.toBytes 2 code.toNat ++ reason

/-- Whether the payload of a close frame is bad. -/
def badClose (payload : List UInt8) : Bool := (extractCode payload).2 || (extractReason payload).2

/-- The reply to a close frame. -/
def closeReply (e : Endpoint) (payload : List UInt8) : Reply where
  opcode := .close
  payload :=
    if (extractCode payload).2 then closeBytes protocolError (textBytes "Invalid close code")
    else if (extractReason payload).2 then closeBytes protocolError (textBytes "Invalid close reason")
    else if payload = [] then closeBytes normal []
    else payload
  terminal := e.isServer

/-- The reply to an error of the processor. -/
def errorReply (ec : ErrorCode) : Reply where
  opcode := .close
  payload := closeBytes ec.toWs (textBytes ec.message)
  terminal := terminal ec.toWs

/-- The replies to messages. -/
def replies (e : Endpoint) : List Message → List Reply
  | [] => []
  | msg :: msgs =>
    if msg.opcode = .close then
      closeReply e msg.payload ::
        (msgs.filter fun msg => msg.opcode = .close ∧ badClose msg.payload).map (closeReply e ·.payload)
    else if msg.opcode = .ping then ⟨.pong, msg.payload, false⟩ :: replies e msgs
    else replies e msgs

/-- The data messages before the first close frame. -/
def handled (msgs : List Message) : List Message :=
  (msgs.takeWhile fun msg => msg.opcode ≠ .close).filter fun msg => ¬ msg.opcode.isControl

/-- A control message before the close frame is not handled. -/
theorem handled_cons_control {msg : Message} (hop : msg.opcode ≠ .close) (hcontrol : msg.opcode.isControl = true)
    (msgs : List Message) : handled (msg :: msgs) = handled msgs := by
  rw [handled, List.takeWhile_cons_of_pos (by simpa using hop), List.filter_cons_of_neg (by simpa using hcontrol)]
  rfl

/-- A data message before the close frame is handled. -/
theorem handled_cons_data {msg : Message} (hdata : ¬ msg.opcode.isControl = true) (msgs : List Message) :
    handled (msg :: msgs) = msg :: handled msgs := by
  have hop : msg.opcode ≠ .close := fun h => hdata (by rw [h]; rfl)
  rw [handled, List.takeWhile_cons_of_pos (by simpa using hop), List.filter_cons_of_pos (by simpa using hdata)]
  rfl

/-- A message that is handled is one of those received, and a data message. -/
theorem mem_handled {msgs : List Message} {msg : Message} (h : msg ∈ handled msgs) :
    msg ∈ msgs ∧ ¬ msg.opcode.isControl = true := by
  obtain ⟨hmem, hop⟩ := List.mem_filter.1 h
  exact ⟨(List.takeWhile_sublist _).subset hmem, by simpa using hop⟩

/-! ## Frames that are prepared -/

/-- A server does not use the key. -/
theorem Reply.frame_of_isServer {e : Endpoint} (h : e.isServer = true) (key key' : MaskingKey) (r : Reply) :
    r.frame e key = r.frame e key' := by
  simp only [frame, writeHeader, writePayload, h, if_true]

/-- A control frame with a short payload is prepared. -/
theorem prepareControl_eq (e : Endpoint) {op : Opcode} {payload : List UInt8} (key : MaskingKey)
    (hop : op.isControl = true) (hlen : payload.length ≤ payloadSizeBasic) :
    prepareControl e op payload key = .ok (Reply.frame e key ⟨op, payload, false⟩) := by
  rw [prepareControl, if_neg (not_not.2 hop), if_neg (not_lt.2 hlen)]
  rfl

/-- A close frame with a code that may be sent and a short reason is prepared. -/
theorem prepareClose_eq (e : Endpoint) {code : UInt16} {reason : List UInt8} (key : MaskingKey)
    (hres : reserved code = false) (hinv : invalid code = false) (hlen : reason.length ≤ 123) :
    prepareClose e code reason key = .ok (Reply.frame e key ⟨.close, closeBytes code reason, false⟩) := by
  have hcode : code ≠ noStatus := by
    rintro rfl
    exact absurd hinv (by decide)
  have hpay : (closeBytes code reason).length ≤ payloadSizeBasic := by
    rw [closeBytes, List.length_append, BigEndian.length_toBytes, payloadSizeBasic]
    omega
  rw [prepareClose, hres, hinv, if_neg Bool.false_ne_true, if_neg (fun h => Bool.false_ne_true h.1),
    if_neg (fun h => hcode h.1), if_neg (not_lt.2 (show reason.length ≤ payloadSizeBasic - 2 from hlen)),
    if_pos hcode]
  exact prepareControl_eq e key rfl hpay

namespace Session

variable {e : Endpoint} {c : Session} {rs : List Reply}

/-! ## Messages that are received -/

/-- A session has sent the frames of some replies. -/
structure Answered (e : Endpoint) (rs : List Reply) (c : Session) : Prop where
  sent : c.sent = frames e rs
  drawn : e.isServer = false → c.drawn = rs.length

/-- A session that has answered some replies has answered one more once its frame is queued. -/
theorem Answered.writePush (h : Answered e rs c) (r : Reply) :
    Answered e (rs ++ [r]) (c.writePush e (r.frame e (e.rng c.drawn))) where
  sent := by
    have hkey : r.frame e (e.rng c.drawn) = r.frame e (e.rng rs.length) := by
      cases hserver : e.isServer with
      | true => exact r.frame_of_isServer hserver _ _
      | false => rw [h.drawn hserver]
    rw [Session.writePush, h.sent, hkey, frames, frames, List.mapIdx_append]
    simp
  drawn := fun hserver => by
    rw [Session.writePush, if_neg (by rw [hserver]; decide), h.drawn hserver, List.length_append]
    rfl

/-- The close frame that is sent has the code and the reason, where they may be sent. -/
theorem sendCloseFrame_eq (c : Session) {code code' : UInt16} {reason reason' : List UInt8}
    {ack : Bool} (terminal : Bool)
    (hlocal : (if code ≠ blank then (code, reason)
      else if ¬ ack then (noStatus, [])
      else if c.remoteCloseCode = noStatus then (normal, [])
      else (c.remoteCloseCode, c.remoteCloseReason)) = (code', reason'))
    (hres : reserved code' = false) (hinv : invalid code' = false) (hlen : reason'.length ≤ 123) :
    c.sendCloseFrame e code reason ack terminal =
      ({ c.writePush e (Reply.frame e (e.rng c.drawn) ⟨.close, closeBytes code' reason', terminal⟩) with
        state := .closing
        wasClean := c.wasClean || ack }, false) := by
  unfold sendCloseFrame
  rw [hlocal]
  dsimp only
  rw [prepareClose_eq e _ hres hinv hlen]
  rfl

/-- A close frame is acknowledged with its own code and reason, or with 1000 where it has none. -/
theorem sendCloseAck_blank (c : Session) {code : UInt16} {reason : List UInt8}
    (hlocal : (if c.remoteCloseCode = noStatus then (normal, [])
      else (c.remoteCloseCode, c.remoteCloseReason)) = (code, reason))
    (hres : reserved code = false) (hinv : invalid code = false) (hlen : reason.length ≤ 123) :
    c.sendCloseAck e blank [] =
      ({ c.writePush e (Reply.frame e (e.rng c.drawn) ⟨.close, closeBytes code reason, e.isServer⟩) with
        state := .closing
        wasClean := true }, false) := by
  rw [sendCloseAck, sendCloseFrame_eq c e.isServer _ hres hinv hlen, Bool.or_true]
  rw [if_neg (not_not.2 rfl), if_neg (not_not.2 rfl), hlocal]

/-- The close frame that is sent back to a bad payload has the code 1002. -/
theorem sendCloseAck_protocolError (c : Session) {reason : List UInt8} (hlen : reason.length ≤ 123) :
    c.sendCloseAck e protocolError reason =
      ({ c.writePush e
          (Reply.frame e (e.rng c.drawn) ⟨.close, closeBytes protocolError reason, e.isServer⟩) with
        state := .closing
        wasClean := true }, false) := by
  rw [sendCloseAck, sendCloseFrame_eq c e.isServer (if_pos (by decide)) rfl rfl hlen, Bool.or_true]

/-- A close code that is extracted without an error can be sent back. -/
theorem extractCode_ok {payload : List UInt8} (hok : (extractCode payload).2 = false) (hne : payload ≠ []) :
    reserved (extractCode payload).1 = false ∧ invalid (extractCode payload).1 = false ∧
      closeBytes (extractCode payload).1 (payload.drop 2) = payload := by
  match payload with
  | [] => exact absurd rfl hne
  | [_] => cases hok
  | b :: b' :: reason =>
    obtain ⟨hinv, hres⟩ := Bool.or_eq_false_iff.1 hok
    refine ⟨hres, hinv, ?_⟩
    have hlt : BigEndian.ofBytes [b, b'] < 2 ^ 16 := (BigEndian.ofBytes_lt [b, b']).trans_le (by simp)
    have hcode : (UInt16.ofNat (BigEndian.ofBytes [b, b'])).toNat = BigEndian.ofBytes [b, b'] :=
      UInt16.toNat_ofNat'.trans (Nat.mod_eq_of_lt hlt)
    show BigEndian.toBytes 2 (UInt16.ofNat (BigEndian.ofBytes [b, b'])).toNat ++ reason = b :: b' :: reason
    rw [hcode]
    exact congrArg (· ++ reason) (BigEndian.toBytes_ofBytes [b, b'])

/-- A close frame with a bad payload is answered with the reply to it, whatever came before. -/
theorem processClose_bad (c : Session) {payload : List UInt8} (hbad : badClose payload = true) :
    ∃ c₁ : Session, c.processClose e payload =
      { c₁.writePush e ((closeReply e payload).frame e (e.rng c₁.drawn)) with
        state := .closing
        wasClean := true } ∧
    c₁.sent = c.sent ∧ c₁.drawn = c.drawn := by
  unfold processClose closeReply
  dsimp only
  by_cases hcode : (extractCode payload).2 = true
  · rw [if_pos hcode, if_pos hcode, sendCloseAck_protocolError _ (by decide)]
    exact ⟨_, rfl, rfl, rfl⟩
  · have hreason := (Bool.or_eq_true_iff.1 hbad).resolve_left hcode
    rw [if_neg hcode, if_neg hcode, if_pos hreason, if_pos hreason, sendCloseAck_protocolError _ (by decide)]
    exact ⟨_, rfl, rfl, rfl⟩

/-- The close frame that arrives first is answered with the reply to it. -/
theorem processClose_open (hopen : c.state = .open) {payload : List UInt8}
    (hlen : payload.length ≤ payloadSizeBasic) : ∃ c₁ : Session,
    c.processClose e payload = { c₁.writePush e ((closeReply e payload).frame e (e.rng c₁.drawn)) with
      state := .closing
      wasClean := true } ∧
    c₁.sent = c.sent ∧ c₁.drawn = c.drawn := by
  cases hbad : badClose payload with
  | true => exact processClose_bad c hbad
  | false =>
    obtain ⟨hcode, hreason⟩ := Bool.or_eq_false_iff.1 hbad
    unfold processClose closeReply
    dsimp only
    rw [hcode, hreason, if_neg Bool.false_ne_true, if_neg Bool.false_ne_true, if_neg Bool.false_ne_true,
      if_neg Bool.false_ne_true, if_pos hopen]
    by_cases hne : payload = []
    · subst hne
      rw [if_pos rfl, sendCloseAck_blank _ (if_pos rfl) rfl rfl (by decide)]
      exact ⟨_, rfl, rfl, rfl⟩
    · obtain ⟨hres, hinv, hbytes⟩ := extractCode_ok hcode hne
      have hstatus : (extractCode payload).1 ≠ noStatus := by
        intro h
        rw [h] at hinv
        exact absurd hinv (by decide)
      have hlen' : (extractReason payload).1.length ≤ 123 := by
        have hle : payload.length ≤ 125 := hlen
        rw [extractReason, List.length_drop]
        omega
      rw [if_neg hne, sendCloseAck_blank _ (if_neg hstatus) hres hinv hlen']
      refine ⟨{ c with
        remoteCloseCode := (extractCode payload).1
        remoteCloseReason := (extractReason payload).1 }, ?_, rfl, rfl⟩
      rw [show closeBytes (extractCode payload).1 (extractReason payload).1 = payload from hbytes]

/-- A close frame after the first one is not answered where its payload is not bad. -/
theorem processClose_spurious (hclosing : c.state = .closing) (hclean : c.wasClean = true)
    {payload : List UInt8} (hbad : badClose payload = false) :
    c.processClose e payload = { c with
      remoteCloseCode := (extractCode payload).1
      remoteCloseReason := (extractReason payload).1 } := by
  obtain ⟨hcode, hreason⟩ := Bool.or_eq_false_iff.1 hbad
  unfold processClose
  dsimp only
  rw [hcode, hreason, if_neg Bool.false_ne_true, if_neg Bool.false_ne_true,
    if_neg (by rw [hclosing]; decide), if_neg (fun h => h.2 hclean)]

/-! ## Sessions that answer -/

/-- A message before the first close frame is handled if it carries data, and answered if it is a ping. -/
theorem receive_open (h : Answered e rs c) (hopen : c.state = .open) {msg : Message}
    (hmsg : Processor.Received msg) (hop : msg.opcode ≠ .close) :
    (c.receive e msg).2 = (if msg.opcode.isControl then [] else [msg]) ∧
    (c.receive e msg).1.state = .open ∧
    Answered e (rs ++ if msg.opcode = .ping then [⟨.pong, msg.payload, false⟩] else [])
      (c.receive e msg).1 := by
  unfold receive processControlFrame
  by_cases hcontrol : msg.opcode.isControl = true
  · rw [if_neg (not_not.2 hcontrol), if_pos hcontrol, if_neg (by rw [hopen]; decide),
      if_neg (fun h => h.2 hopen)]
    have hlen : msg.payload.length ≤ payloadSizeBasic := by
      rcases hmsg with ⟨-, hlen⟩ | hbin | ⟨htext, -⟩
      · exact hlen
      · exact absurd hcontrol (by rw [hbin]; decide)
      · exact absurd hcontrol (by rw [htext]; decide)
    by_cases hping : msg.opcode = .ping
    · rw [if_pos hping, if_pos hping, pong, if_neg (not_not.2 hopen), prepareControl_eq e _ rfl hlen]
      exact ⟨rfl, hopen, h.writePush _⟩
    · rw [if_neg hping, if_neg hping, if_neg hop, List.append_nil, ite_self]
      exact ⟨rfl, hopen, h⟩
  · have hping : msg.opcode ≠ .ping := fun hp => hcontrol (by rw [hp]; rfl)
    rw [if_pos hcontrol, if_neg (not_not.2 hopen), if_neg hcontrol, if_neg hping, List.append_nil]
    exact ⟨rfl, hopen, h⟩

/-- The first close frame is answered, and the session is closing. -/
theorem receive_close (h : Answered e rs c) (hopen : c.state = .open) {msg : Message}
    (hmsg : Processor.Received msg) (hop : msg.opcode = .close) :
    (c.receive e msg).2 = [] ∧ (c.receive e msg).1.state = .closing ∧
    (c.receive e msg).1.wasClean = true ∧
    Answered e (rs ++ [closeReply e msg.payload]) (c.receive e msg).1 := by
  have hlen : msg.payload.length ≤ payloadSizeBasic := by
    rcases hmsg with ⟨-, hlen⟩ | hbin | ⟨htext, -⟩
    · exact hlen
    · rw [hop] at hbin
      cases hbin
    · rw [hop] at htext
      cases htext
  obtain ⟨c₁, hc₁, hsent, hdrawn⟩ := processClose_open (e := e) hopen hlen
  have hreceive : c.receive e msg = (c.processClose e msg.payload, []) := by
    unfold receive processControlFrame
    rw [hop, if_neg (by decide), if_neg (by rw [hopen]; decide), if_neg (fun h => h.1 rfl),
      if_neg (by decide), if_neg (by decide), if_pos rfl]
  have hc : Answered e rs c₁ := ⟨hsent.trans h.sent, fun hs => hdrawn.trans (h.drawn hs)⟩
  rw [hreceive, hc₁]
  exact ⟨rfl, rfl, rfl, (hc.writePush _).sent, (hc.writePush _).drawn⟩

/-- A message after the first close frame is not handled, and answered only if it is a bad close frame. -/
theorem receive_closing (h : Answered e rs c) (hclosing : c.state = .closing) (hclean : c.wasClean = true)
    (msg : Message) :
    (c.receive e msg).2 = [] ∧ (c.receive e msg).1.state = .closing ∧
    (c.receive e msg).1.wasClean = true ∧
    Answered e (rs ++ if msg.opcode = .close ∧ badClose msg.payload then [closeReply e msg.payload] else [])
      (c.receive e msg).1 := by
  have hopen : c.state ≠ .open := by rw [hclosing]; decide
  have hclosed : c.state ≠ .closed := by rw [hclosing]; decide
  unfold receive processControlFrame
  by_cases hop : msg.opcode = .close
  · rw [hop, if_neg (by decide), if_neg hclosed, if_neg (fun h => h.1 rfl), if_neg (by decide),
      if_neg (by decide), if_pos rfl]
    cases hbad : badClose msg.payload with
    | true =>
      obtain ⟨c₁, hc₁, hsent, hdrawn⟩ := processClose_bad (e := e) c hbad
      have hc : Answered e rs c₁ := ⟨hsent.trans h.sent, fun hs => hdrawn.trans (h.drawn hs)⟩
      rw [hc₁, if_pos ⟨rfl, rfl⟩]
      exact ⟨rfl, rfl, rfl, (hc.writePush _).sent, (hc.writePush _).drawn⟩
    | false =>
      rw [processClose_spurious hclosing hclean hbad, if_neg (fun h => Bool.false_ne_true h.2),
        List.append_nil]
      exact ⟨rfl, hclosing, hclean, h.sent, h.drawn⟩
  · have hdrop : msg.opcode ≠ .close ∧ c.state ≠ .open := ⟨hop, hopen⟩
    rw [if_neg hclosed, if_pos hdrop, if_pos hopen, ite_self, if_neg (fun h => hop h.1), List.append_nil]
    exact ⟨rfl, hclosing, hclean, h⟩

/-! ## Runs -/

/-- Of the messages after the first close frame none is handled, and only bad close frames are answered. -/
theorem receiveAll_closing (h : Answered e rs c) (hclosing : c.state = .closing) (hclean : c.wasClean = true)
    (msgs : List Message) :
    (c.receiveAll e msgs).2 = [] ∧ (c.receiveAll e msgs).1.state = .closing ∧
    Answered e
      (rs ++ (msgs.filter fun msg => msg.opcode = .close ∧ badClose msg.payload).map (closeReply e ·.payload))
      (c.receiveAll e msgs).1 := by
  induction msgs generalizing c rs with
  | nil => exact ⟨rfl, hclosing, by rwa [List.filter_nil, List.map_nil, List.append_nil]⟩
  | cons msg msgs ih =>
    obtain ⟨hmsg, hclosing', hclean', h'⟩ := receive_closing h hclosing hclean msg
    obtain ⟨hmsgs, hstate, hanswered⟩ := ih h' hclosing' hclean'
    simp only [receiveAll]
    refine ⟨by rw [hmsg, hmsgs]; rfl, hstate, ?_⟩
    rw [List.append_assoc] at hanswered
    by_cases hbad : msg.opcode = .close ∧ badClose msg.payload = true
    · rw [if_pos hbad] at hanswered
      rwa [List.filter_cons_of_pos (by simpa using hbad)]
    · rw [if_neg hbad] at hanswered
      rwa [List.filter_cons_of_neg (by simpa using hbad)]

/-- Of the messages that arrive while the session is open, those of `handled` are handled and the `replies`
are sent. -/
theorem receiveAll_open (h : Answered e rs c) (hopen : c.state = .open) {msgs : List Message}
    (hmsgs : ∀ msg ∈ msgs, Processor.Received msg) :
    (c.receiveAll e msgs).2 = handled msgs ∧
    (c.receiveAll e msgs).1.state = (if ∃ msg ∈ msgs, msg.opcode = .close then .closing else .open) ∧
    Answered e (rs ++ replies e msgs) (c.receiveAll e msgs).1 := by
  induction msgs generalizing c rs with
  | nil => exact ⟨rfl, by simpa [receiveAll] using hopen, by rwa [replies, List.append_nil]⟩
  | cons msg msgs ih =>
    obtain ⟨hmsg, hrest⟩ := List.forall_mem_cons.1 hmsgs
    simp only [receiveAll, replies]
    by_cases hop : msg.opcode = .close
    · obtain ⟨hnone, hclosing, hclean, h'⟩ := receive_close h hopen hmsg hop
      obtain ⟨hnone', hstate, hanswered⟩ := receiveAll_closing h' hclosing hclean msgs
      rw [if_pos hop, handled, List.takeWhile_cons_of_neg (by simpa using hop),
        if_pos ⟨msg, List.mem_cons_self, hop⟩]
      exact ⟨by rw [hnone, hnone']; rfl, hstate, by rwa [List.append_assoc] at hanswered⟩
    · obtain ⟨hone, hopen', h'⟩ := receive_open h hopen hmsg hop
      obtain ⟨hall, hstate, hanswered⟩ := ih h' hopen' hrest
      rw [if_neg hop]
      refine ⟨?_, ?_, ?_⟩
      · rw [hone, hall]
        by_cases hcontrol : msg.opcode.isControl = true
        · rw [if_pos hcontrol, handled_cons_control hop hcontrol, List.nil_append]
        · rw [if_neg hcontrol, handled_cons_data hcontrol, List.singleton_append]
      · rw [hstate]
        simp only [List.mem_cons, exists_eq_or_imp, hop, false_or]
      · rw [List.append_assoc] at hanswered
        by_cases hping : msg.opcode = .ping
        · rwa [if_pos hping] at hanswered ⊢
        · rwa [if_neg hping] at hanswered ⊢

/-- An error while the session is open is answered with a close frame. -/
theorem fail_open (h : Answered e rs c) (hopen : c.state = .open) (ec : ErrorCode) :
    (c.fail e ec).state = .closing ∧ Answered e (rs ++ [errorReply ec]) (c.fail e ec) := by
  have hcode : ec.toWs ≠ blank ∧ reserved ec.toWs = false ∧ invalid ec.toWs = false ∧
      (textBytes ec.message).length ≤ 123 := by
    cases ec <;> decide
  obtain ⟨hblank, hres, hinv, hlen⟩ := hcode
  unfold fail close
  rw [if_neg (not_not.2 hopen), List.take_of_length_le hlen,
    sendCloseFrame_eq c _ (if_pos hblank) hres hinv hlen]
  exact ⟨rfl, (h.writePush _).sent, (h.writePush _).drawn⟩

/-- An error once a close frame was sent ends the connection. -/
theorem fail_closing (h : Answered e rs c) (hclosing : c.state = .closing) (ec : ErrorCode) :
    (c.fail e ec).state = .closed ∧ Answered e rs (c.fail e ec) := by
  unfold fail close
  rw [if_pos (by rw [hclosing]; decide)]
  exact ⟨rfl, h.sent, h.drawn⟩

end Session

end Typhoon.WebSocket
