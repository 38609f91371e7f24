import Typhoon.Library.Machine
import Typhoon.WebSocket.Connection

/-!
# The connection as it writes

`connection` of `websocketpp/impl/connection_impl.hpp` once more, with what it gives to the transport. `write_frame`
takes the messages that are queued, up to one that is marked terminal, and `handle_write_frame` is called when they
are written: after an error or a terminal message it terminates the connection. Reads, writes and the timer of the
close handshake are the events of a machine, in any order. Whatever that order, the messages are written one after
another as they are queued, none after a terminal one (`run_writes`).
-/

namespace Typhoon.WebSocket

/-- `connection`, with the members that it writes with. The messages that are queued are those of the session. -/
structure Duplex extends Connection where
  /-- How many messages `write_pop` has taken from `m_send_queue`. -/
  popped : ℕ
  /-- `m_current_msgs`. -/
  currentMsgs : List Message
  /-- `m_write_flag`. -/
  writeFlag : Bool
  /-- The messages that have been written, those of a write that failed left out. -/
  written : List Message

namespace Duplex

/-- What may happen to a connection, which the provider itself neither sends on nor closes. The transport and the
timer decide the order; a run may also bring events that they would not, such as the timer before it is set. -/
inductive Event
  /-- `handle_read_frame` with the bytes of a read. -/
  | read (buf : List UInt8)
  /-- `handle_read_frame` with an error of the transport, such as the end of the stream. -/
  | readError
  /-- `write_frame`, which is dispatched for a message that is queued and after a write. -/
  | writeFrame
  /-- `handle_write_frame`, and whether with an error. -/
  | handleWriteFrame (ec : Bool)
  /-- `handle_close_handshake_timeout`. -/
  | closeHandshakeTimeout

/-- A connection at the end of its handshake. -/
def start : Duplex where
  toConnection := .start
  popped := 0
  currentMsgs := []
  writeFlag := false
  written := []

/-- `m_send_queue`. -/
def sendQueue (c : Duplex) : List Message := c.session.sent.drop c.popped

/-- The messages that the loop of `write_frame` takes from a queue: it stops after a terminal one. -/
def upToTerminal : List Message → List Message
  | [] => []
  | msg :: msgs => if msg.terminal then [msg] else msg :: upToTerminal msgs

/-- `write_frame`: the messages of `m_current_msgs` are given to the transport. -/
def writeFrame (c : Duplex) : Duplex :=
  -- A write is under way.
  if c.writeFlag then c
  else
    let msgs := upToTerminal c.sendQueue
    let c := { c with
      popped := c.popped + msgs.length
      currentMsgs := c.currentMsgs ++ msgs }
    if c.currentMsgs.isEmpty then c else { c with writeFlag := true }

/-- `terminate`. -/
def terminate (c : Duplex) : Duplex := { c with session := c.session.terminate }

/-- `handle_write_frame`. The transport calls it for a write that is under way; without one nothing is done. -/
def handleWriteFrame (c : Duplex) (ec : Bool) : Duplex :=
  match c.currentMsgs.getLast? with
  | none => c
  | some msg =>
    let written := if ec then c.written else c.written ++ c.currentMsgs
    let c := { c with
      currentMsgs := []
      written }
    -- The flag stays set after a write that terminates the connection, so it is the last one.
    if ec then c.terminate
    else if msg.terminal then c.terminate
    else { c with writeFlag := false }

/-- What an event does, and the messages that the message handler is called with. -/
def step (e : Endpoint) (c : Duplex) : Event → Duplex × List Message
  | .read buf =>
    let (connection, msgs) := c.toConnection.read e buf
    ({ c with toConnection := connection }, msgs)
  | .readError => (c.terminate, [])
  | .writeFrame => (c.writeFrame, [])
  | .handleWriteFrame ec => (c.handleWriteFrame ec, [])
  | .closeHandshakeTimeout => (c.terminate, [])

/-- The connection of an endpoint, driven by events. -/
def machine (e : Endpoint) : Machine Duplex Event (List Message) where
  step := step e

/-! ## Messages up to a terminal one -/

/-- What is taken from a queue is its beginning. -/
theorem upToTerminal_isPrefix (msgs : List Message) : upToTerminal msgs <+: msgs := by
  induction msgs with
  | nil => exact List.prefix_rfl
  | cons msg msgs ih =>
    rw [upToTerminal]
    split_ifs
    · exact ⟨msgs, rfl⟩
    · exact (List.prefix_cons_inj msg).2 ih

/-- No message that is taken is terminal, but for the last. -/
theorem not_terminal_of_mem_dropLast {msgs : List Message} :
    ∀ msg ∈ (upToTerminal msgs).dropLast, msg.terminal = false := by
  induction msgs with
  | nil => exact List.forall_mem_nil _
  | cons msg msgs ih =>
    rw [upToTerminal]
    split_ifs with hterminal
    · exact List.forall_mem_nil _
    · intro msg' hmsg
      rcases eq_or_ne (upToTerminal msgs) [] with hnil | hne
      · rw [hnil] at hmsg
        exact absurd hmsg List.not_mem_nil
      · rw [List.dropLast_cons_of_ne_nil hne] at hmsg
        rcases List.mem_cons.1 hmsg with rfl | hmsg
        · exact Bool.eq_false_iff.2 hterminal
        · exact ih msg' hmsg

/-- Messages that are not terminal are all taken. -/
theorem upToTerminal_append {msgs : List Message} (h : ∀ msg ∈ msgs, msg.terminal = false)
    (msgs' : List Message) : upToTerminal (msgs ++ msgs') = msgs ++ upToTerminal msgs' := by
  induction msgs with
  | nil => rfl
  | cons msg msgs ih =>
    obtain ⟨hmsg, hmsgs⟩ := List.forall_mem_cons.1 h
    rw [List.cons_append, upToTerminal, if_neg (by rw [hmsg]; decide), ih hmsgs, List.cons_append]

/-! ## What is written -/

/-- The writes of a connection: none is under way, or one is, or the last one has terminated the connection. -/
inductive Writing (c : Duplex) : Prop
  | idle (flag : c.writeFlag = false) (current : c.currentMsgs = []) (popped : c.popped = c.written.length)
    (plain : ∀ msg ∈ c.written, msg.terminal = false)
  | busy (flag : c.writeFlag = true) (current : c.currentMsgs ≠ [])
    (popped : c.popped = (c.written ++ c.currentMsgs).length) (plain : ∀ msg ∈ c.written, msg.terminal = false)
  | ended (flag : c.writeFlag = true) (current : c.currentMsgs = []) (closed : c.session.state = .closed)

/-- What is written and being written is the beginning of what is queued, and none of it but for the last message is
terminal. -/
structure Written (c : Duplex) : Prop where
  writing : c.Writing
  isPrefix : c.written ++ c.currentMsgs <+: c.session.sent
  plain : ∀ msg ∈ (c.written ++ c.currentMsgs).dropLast, msg.terminal = false

variable {e : Endpoint} {c : Duplex}

/-- What is read may queue more, and close the session. -/
theorem Written.connection (h : c.Written) {d : Connection} (hsent : c.session.sent <+: d.session.sent)
    (hclosed : c.session.state = .closed → d.session.state = .closed) :
    Written { c with toConnection := d } where
  writing := by
    cases h.writing with
    | idle flag current popped plain => exact .idle flag current popped plain
    | busy flag current popped plain => exact .busy flag current popped plain
    | ended flag current closed => exact .ended flag current (hclosed closed)
  isPrefix := h.isPrefix.trans hsent
  plain := h.plain

/-- Terminating a connection leaves what is written. -/
theorem Written.terminate (h : c.Written) : c.terminate.Written :=
  h.connection (d := ⟨c.processor, c.session.terminate⟩) List.prefix_rfl fun _ => rfl

/-- With no write under way, `write_frame` takes what it can and begins one, unless that is nothing. -/
theorem writeFrame_idle (flag : c.writeFlag = false) (current : c.currentMsgs = []) :
    c.writeFrame = { c with
      popped := c.popped + (upToTerminal c.sendQueue).length
      currentMsgs := upToTerminal c.sendQueue
      writeFlag := !(upToTerminal c.sendQueue).isEmpty } := by
  unfold writeFrame
  rw [flag, current, if_neg Bool.false_ne_true]
  dsimp only [List.nil_append]
  cases hempty : (upToTerminal c.sendQueue).isEmpty with
  | true => rw [if_pos rfl, Bool.not_true]
  | false => rw [if_neg Bool.false_ne_true, Bool.not_false]

/-- With no write under way, what is written and what waits are all that is queued. -/
theorem Written.append_sendQueue (h : c.Written) (current : c.currentMsgs = [])
    (popped : c.popped = c.written.length) : c.written ++ c.sendQueue = c.session.sent := by
  obtain ⟨rest, hrest⟩ := h.isPrefix
  rw [current, List.append_nil] at hrest
  rw [sendQueue, popped, ← hrest, List.drop_left]

/-- A write takes what is queued after what is written. -/
theorem Written.writeFrame (h : c.Written) : c.writeFrame.Written := by
  cases h.writing with
  | idle flag current popped plain =>
    have hqueue := h.append_sendQueue current popped
    have htaken := upToTerminal_isPrefix c.sendQueue
    rw [writeFrame_idle flag current]
    refine ⟨?_, ?_, ?_⟩
    · rcases eq_or_ne (upToTerminal c.sendQueue) [] with hnil | hne
      · rw [hnil]
        exact .idle rfl rfl popped plain
      · refine .busy ?_ hne ?_ plain
        · rw [List.isEmpty_eq_false_iff.2 hne, Bool.not_false]
        · rw [popped, List.length_append]
    · show c.written ++ upToTerminal c.sendQueue <+: c.session.sent
      rw [← hqueue]
      exact (List.prefix_append_right_inj _).2 htaken
    · show ∀ msg ∈ (c.written ++ upToTerminal c.sendQueue).dropLast, msg.terminal = false
      intro msg hmsg
      rcases eq_or_ne (upToTerminal c.sendQueue) [] with hnil | hne
      · rw [hnil, List.append_nil] at hmsg
        exact plain msg (List.dropLast_subset _ hmsg)
      · rw [List.dropLast_append_of_ne_nil hne] at hmsg
        rcases List.mem_append.1 hmsg with hmsg | hmsg
        · exact plain msg hmsg
        · exact not_terminal_of_mem_dropLast msg hmsg
  | busy flag current popped plain => rwa [Duplex.writeFrame, if_pos flag]
  | ended flag current closed => rwa [Duplex.writeFrame, if_pos flag]

/-- `handle_write_frame` does nothing with no write under way. -/
theorem handleWriteFrame_nil (current : c.currentMsgs = []) (ec : Bool) : c.handleWriteFrame ec = c := by
  rw [handleWriteFrame, current]
  rfl

/-- Once a write has terminated the connection, no other one is made. -/
theorem handleWriteFrame_ended (flag : c.writeFlag = true) (current : c.currentMsgs = []) :
    c.writeFrame.handleWriteFrame false = c := by
  rw [writeFrame, if_pos flag, handleWriteFrame_nil current]

/-- `handle_write_frame` terminates the connection where the write failed. -/
theorem handleWriteFrame_true (current : c.currentMsgs ≠ []) :
    c.handleWriteFrame true = terminate { c with currentMsgs := [] } := by
  rw [handleWriteFrame, List.getLast?_eq_getLast_of_ne_nil current]
  rfl

/-- After a write without an error, its last message decides whether `handle_write_frame` terminates the connection or
lets the next write begin. -/
theorem handleWriteFrame_concat {msgs : List Message} {msg : Message} (hcurrent : c.currentMsgs = msgs ++ [msg]) :
    c.handleWriteFrame false =
      if msg.terminal then terminate { c with
        currentMsgs := []
        written := c.written ++ c.currentMsgs }
      else { c with
        currentMsgs := []
        writeFlag := false
        written := c.written ++ c.currentMsgs } := by
  have hlast : c.currentMsgs.getLast? = some msg := by rw [hcurrent, List.getLast?_concat]
  unfold handleWriteFrame
  rw [hlast]
  dsimp only
  rw [if_neg Bool.false_ne_true, if_neg Bool.false_ne_true]

/-- `handle_write_frame` terminates the connection where the last message written is terminal. -/
theorem handleWriteFrame_terminal {msgs : List Message} {msg : Message} (hcurrent : c.currentMsgs = msgs ++ [msg])
    (hterminal : msg.terminal = true) :
    c.handleWriteFrame false = terminate { c with
      currentMsgs := []
      written := c.written ++ c.currentMsgs } := by
  rw [handleWriteFrame_concat hcurrent, if_pos hterminal]

/-- `handle_write_frame` lets the next write begin where the last message written is not terminal. -/
theorem handleWriteFrame_plain {msgs : List Message} {msg : Message} (hcurrent : c.currentMsgs = msgs ++ [msg])
    (hterminal : msg.terminal = false) :
    c.handleWriteFrame false = { c with
      currentMsgs := []
      writeFlag := false
      written := c.written ++ c.currentMsgs } := by
  rw [handleWriteFrame_concat hcurrent, if_neg (by rw [hterminal]; decide)]

/-- No message is terminal where the last one is not. -/
theorem Written.plain_of_last (h : c.Written) {msgs : List Message} {msg : Message}
    (hcurrent : c.currentMsgs = msgs ++ [msg]) (hterminal : msg.terminal = false) :
    ∀ msg' ∈ c.written ++ c.currentMsgs, msg'.terminal = false := by
  have hplain := h.plain
  rw [hcurrent, ← List.append_assoc, List.dropLast_concat] at hplain
  rw [hcurrent, ← List.append_assoc]
  exact List.forall_mem_append.2 ⟨hplain, List.forall_mem_singleton.2 hterminal⟩

/-- A write that is under way comes to its end. -/
theorem Written.handleWriteFrame (h : c.Written) (ec : Bool) : (c.handleWriteFrame ec).Written := by
  cases h.writing with
  | idle flag current popped plain => rwa [handleWriteFrame_nil current]
  | ended flag current closed => rwa [handleWriteFrame_nil current]
  | busy flag current popped plain =>
    cases ec with
    | true =>
      -- The messages of the write are lost.
      rw [handleWriteFrame_true current]
      refine ⟨.ended flag rfl rfl, ?_, fun msg hmsg => plain msg ?_⟩
      · exact (List.append_nil _).symm ▸ (List.prefix_append _ _).trans h.isPrefix
      · exact List.dropLast_subset _ (List.append_nil c.written ▸ hmsg)
    | false =>
      -- What was being written is written, and its last message decides whether another write may begin.
      obtain ⟨msgs, msg, hcurrent⟩ := (List.eq_nil_or_concat' c.currentMsgs).resolve_left current
      have hwritten : c.written ++ c.currentMsgs ++ [] <+: c.session.sent := by
        rw [List.append_nil]
        exact h.isPrefix
      have hdrop : ∀ msg ∈ (c.written ++ c.currentMsgs ++ []).dropLast, msg.terminal = false := by
        rw [List.append_nil]
        exact h.plain
      cases hterminal : msg.terminal with
      | true =>
        rw [handleWriteFrame_terminal hcurrent hterminal]
        exact ⟨.ended flag rfl rfl, hwritten, hdrop⟩
      | false =>
        rw [handleWriteFrame_plain hcurrent hterminal]
        exact ⟨.idle rfl rfl popped (h.plain_of_last hcurrent hterminal), hwritten, hdrop⟩

/-! ## Runs -/

/-- Every event keeps to the order of what is queued. -/
theorem Written.step (h : c.Written) (e : Endpoint) (ev : Event) : (step e c ev).1.Written := by
  cases ev with
  | read buf =>
    refine h.connection (c.toConnection.sent_read e buf) fun hclosed => ?_
    have hread := Connection.read_not_live (e := e) (fun hlive : c.Live => hlive.2 hclosed) buf
    exact (congrArg (·.1.session.state) hread).trans hclosed
  | readError => exact h.terminate
  | writeFrame => exact h.writeFrame
  | handleWriteFrame ec => exact h.handleWriteFrame ec
  | closeHandshakeTimeout => exact h.terminate

/-- A connection at its start has written nothing. -/
theorem written_start : start.Written where
  writing := .idle rfl rfl rfl (List.forall_mem_nil _)
  isPrefix := List.prefix_rfl
  plain := List.forall_mem_nil _

/-- What is written in a run is the beginning of what is queued. -/
theorem written_run (e : Endpoint) (evs : List Event) : ((machine e).state start evs).Written :=
  (machine e).invariant (fun _ ev h => h.step e ev) written_start evs

/-- A connection that has written a terminal message is closed. -/
theorem Written.closed (h : c.Written) {msg : Message} (hmsg : msg ∈ c.written) (hterminal : msg.terminal = true) :
    c.session.state = .closed := by
  have hplain : ¬ ∀ msg ∈ c.written, msg.terminal = false := fun hall => by
    rw [hall msg hmsg] at hterminal
    cases hterminal
  cases h.writing with
  | idle flag current popped plain => exact absurd plain hplain
  | busy flag current popped plain => exact absurd plain hplain
  | ended flag current closed => exact closed

/-- With no write under way, one write and its end get all that is queued written, up to a terminal message. -/
theorem Written.write_idle (h : c.Written) (flag : c.writeFlag = false) (current : c.currentMsgs = [])
    (popped : c.popped = c.written.length) (plain : ∀ msg ∈ c.written, msg.terminal = false) :
    (c.writeFrame.handleWriteFrame false).written = upToTerminal c.session.sent := by
  have hqueue := h.append_sendQueue current popped
  have hall : upToTerminal c.session.sent = c.written ++ upToTerminal c.sendQueue := by
    rw [← hqueue, upToTerminal_append plain]
  rw [hall, writeFrame_idle flag current]
  rcases List.eq_nil_or_concat' (upToTerminal c.sendQueue) with hnil | ⟨msgs, msg, htaken⟩
  · rw [hnil, handleWriteFrame_nil rfl, List.append_nil]
  · cases hterminal : msg.terminal with
    | true => rw [handleWriteFrame_terminal htaken hterminal]; rfl
    | false => rw [handleWriteFrame_plain htaken hterminal]

/-- From every state of a run that is not closed, all that is queued can be written, up to a terminal message. -/
theorem Written.write (h : c.Written) (hopen : c.session.state ≠ .closed) :
    ((c.handleWriteFrame false).writeFrame.handleWriteFrame false).written = upToTerminal c.session.sent := by
  cases h.writing with
  | idle flag current popped plain =>
    rw [handleWriteFrame_nil current]
    exact h.write_idle flag current popped plain
  | busy flag current popped plain =>
    obtain ⟨msgs, msg, hcurrent⟩ := (List.eq_nil_or_concat' c.currentMsgs).resolve_left current
    cases hterminal : msg.terminal with
    | true =>
      have hplain := h.plain
      rw [hcurrent, ← List.append_assoc, List.dropLast_concat] at hplain
      -- Nothing is written after the message, which is the last of those that are taken.
      obtain ⟨rest, hrest⟩ := h.isPrefix
      rw [hcurrent, ← List.append_assoc, List.append_assoc _ [msg] rest] at hrest
      rw [handleWriteFrame_terminal hcurrent hterminal, handleWriteFrame_ended (by exact flag) rfl, ← hrest,
        upToTerminal_append hplain, List.singleton_append, upToTerminal, if_pos hterminal, List.append_assoc,
        ← hcurrent]
      rfl
    | false =>
      have hnext := h.handleWriteFrame false
      rw [handleWriteFrame_plain hcurrent hterminal] at hnext ⊢
      exact hnext.write_idle rfl rfl popped (h.plain_of_last hcurrent hterminal)
  | ended flag current closed => exact absurd closed hopen

/-- **What a connection writes.** Whatever happens to it, the messages that it has written and is writing are the
first of those that it has queued, in their order and each once, and a terminal one is the last of them; once that is
written the connection is closed. As long as it is not closed, all that is queued can be written, up to a terminal
message. -/
theorem run_writes (e : Endpoint) (evs : List Event) :
    let c := (machine e).state start evs
    c.written ++ c.currentMsgs <+: c.session.sent ∧
    (∀ msg ∈ (c.written ++ c.currentMsgs).dropLast, msg.terminal = false) ∧
    (∀ msg ∈ c.written, msg.terminal = true → c.session.state = .closed) ∧
    (c.session.state ≠ .closed →
      ((machine e).state c [.handleWriteFrame false, .writeFrame, .handleWriteFrame false]).written =
        upToTerminal c.session.sent) := by
  have h := written_run e evs
  exact ⟨h.isPrefix, h.plain, fun msg hmsg => h.closed hmsg, h.write⟩

end Duplex

end Typhoon.WebSocket
