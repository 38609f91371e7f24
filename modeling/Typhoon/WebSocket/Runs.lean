import Typhoon.WebSocket.Reads
import Typhoon.WebSocket.Writes

/-!
# Runs of a connection

A connection among reads, writes and the errors of its transport, in any order. What it has come to is what one read
brings it to, of all the bytes that came before it was closed (`run_eq_read`), and this says which messages it has
handled and what it has queued (`run_answers`). Two things close it besides what it reads: the transport or the timer
drops it, or a terminal message is written. The second loses nothing, since no message is handled any more once a
terminal message is queued.
-/

namespace Typhoon.WebSocket

/-! ## Messages that are not handled any more -/

/-- Nothing after a close frame is handled. -/
theorem handled_append {msgs : List Message} (h : ∃ msg ∈ msgs, msg.opcode = .close) (msgs' : List Message) :
    handled (msgs ++ msgs') = handled msgs := by
  obtain ⟨msg, hmsg, hop⟩ := h
  have htake : (msgs ++ msgs').takeWhile (fun msg => msg.opcode ≠ .close) =
      msgs.takeWhile fun msg => msg.opcode ≠ .close := by
    rw [List.takeWhile_append]
    rw [if_neg]
    intro hlen
    have hall := List.takeWhile_eq_self_iff.1 ((List.takeWhile_prefix _).eq_of_length hlen)
    exact absurd hop (by simpa using hall msg hmsg)
  rw [handled, htake]
  rfl

/-- Without a close frame nothing terminal is replied. -/
theorem not_terminal_of_mem_replies {e : Endpoint} {msgs : List Message} (h : ¬ ∃ msg ∈ msgs, msg.opcode = .close) :
    ∀ r ∈ replies e msgs, r.terminal = false := by
  induction msgs with
  | nil => exact List.forall_mem_nil _
  | cons msg msgs ih =>
    simp only [List.mem_cons, exists_eq_or_imp, not_or] at h
    rw [replies, if_neg h.1]
    split_ifs
    · exact List.forall_mem_cons.2 ⟨rfl, ih h.2⟩
    · exact ih h.2

namespace Connection

/-- A connection that is open has queued nothing terminal. -/
theorem not_terminal_of_open {e : Endpoint} {buf : List UInt8} (h : (start.read e buf).1.session.state = .open) :
    ∀ msg ∈ (start.read e buf).1.session.sent, msg.terminal = false := by
  cases hout : (Processor.construct.decode e buf).2 with
  | error ec =>
    obtain ⟨-, hstate⟩ := read_of_error hout
    rw [h] at hstate
    split_ifs at hstate
  | ok m =>
    obtain ⟨hsent, hstate⟩ := read_of_ok hout
    rw [h] at hstate
    split_ifs at hstate with hclose
    rw [hsent]
    intro msg hmsg
    obtain ⟨i, hi, rfl⟩ := List.mem_mapIdx.1 hmsg
    exact not_terminal_of_mem_replies hclose _ (List.getElem_mem hi)

/-- Once a connection is not open, no more messages are handled. -/
theorem read_append_of_not_open {e : Endpoint} {buf : List UInt8} (h : (start.read e buf).1.session.state ≠ .open)
    (more : List UInt8) : (start.read e (buf ++ more)).2 = (start.read e buf).2 := by
  have happ := Processor.Waiting.decode_append (e := e) Processor.waiting_construct buf more
  rw [read_handled, read_handled, happ]
  cases hout : (Processor.construct.decode e buf).2 with
  | error ec => rw [Processor.resume, List.append_nil]
  | ok m =>
    obtain ⟨-, hstate⟩ := read_of_ok hout
    have hclose : ∃ msg ∈ (Processor.construct.decode e buf).1, msg.opcode = .close := by
      by_contra hnone
      exact h (hstate.trans (if_neg hnone))
    exact handled_append hclose _

/-- Connections that go on alike read alike. -/
theorem Same.read {e : Endpoint} {c c' : Connection} (h : c.Same c') (buf : List UInt8) :
    (c.read e buf).1.Same (c'.read e buf).1 ∧ (c.read e buf).2 = (c'.read e buf).2 := by
  by_cases hlive : c.Live
  · rw [h.2 hlive]
    exact ⟨Same.refl _, rfl⟩
  · have hlive' : ¬ c'.Live := by
      rw [Live, ← h.1]
      exact hlive
    rw [read_not_live hlive, read_not_live hlive']
    exact ⟨h, rfl⟩

/-- Connections that go on alike, one like the next. -/
theorem Same.trans {c c' c'' : Connection} (h : c.Same c') (h' : c'.Same c'') : c.Same c'' :=
  ⟨h.1.trans h'.1, fun hlive => (h.2 hlive).trans (h'.2 (h.2 hlive ▸ hlive))⟩

end Connection

namespace Duplex

/-- The bytes that an event brings. -/
def Event.bytes : Event → List UInt8
  | .read buf => buf
  | _ => []

/-- Whether an event drops the connection, whatever is read and written. -/
def Event.Drops : Event → Prop
  | .readError => True
  | .handleWriteFrame ec => ec = true
  | .closeHandshakeTimeout => True
  | _ => False

/-- The bytes that are read in a run: those that come once the connection is closed are not. -/
def bytesRead (e : Endpoint) (c : Duplex) : List Event → List UInt8
  | [] => []
  | ev :: evs => (if c.session.state = .closed then [] else ev.bytes) ++ bytesRead e (step e c ev).1 evs

variable {e : Endpoint} {c : Duplex} {bytes : List UInt8} {handled : List Message}

/-! ## What an event does -/

/-- A write leaves all that was read. -/
theorem writeFrame_connection (c : Duplex) : c.writeFrame.toConnection = c.toConnection := by
  unfold writeFrame
  dsimp only
  split_ifs <;> rfl

/-- The end of a write leaves all that was read, or terminates the connection. -/
theorem handleWriteFrame_connection (c : Duplex) (ec : Bool) :
    (c.handleWriteFrame ec).toConnection = c.toConnection ∨
      (c.handleWriteFrame ec).toConnection = c.terminate.toConnection := by
  unfold handleWriteFrame
  split
  · exact .inl rfl
  · dsimp only
    split_ifs
    · exact .inr rfl
    · exact .inr rfl
    · exact .inl rfl

/-- An event is a read, or leaves all that was read, or terminates the connection. -/
theorem step_cases (e : Endpoint) (c : Duplex) (ev : Event) :
    (∃ buf, ev = .read buf) ∨ ev.bytes = [] ∧ (step e c ev).2 = [] ∧
      ((step e c ev).1.toConnection = c.toConnection ∨ (step e c ev).1.toConnection = c.terminate.toConnection) := by
  cases ev with
  | read buf => exact .inl ⟨buf, rfl⟩
  | readError => exact .inr ⟨rfl, rfl, .inr rfl⟩
  | writeFrame => exact .inr ⟨rfl, rfl, .inl c.writeFrame_connection⟩
  | handleWriteFrame ec => exact .inr ⟨rfl, rfl, c.handleWriteFrame_connection ec⟩
  | closeHandshakeTimeout => exact .inr ⟨rfl, rfl, .inr rfl⟩

/-- Nothing that happens to a connection that is closed changes what it has read. -/
theorem step_closed (h : c.session.state = .closed) (ev : Event) :
    (step e c ev).1.toConnection = c.toConnection ∧ (step e c ev).2 = [] := by
  have hterminate : c.terminate.toConnection = c.toConnection := by
    show (⟨c.processor, { c.session with state := .closed }⟩ : Connection) = c.toConnection
    rw [← h]
  rcases step_cases e c ev with ⟨buf, rfl⟩ | ⟨-, hnone, hsame | hended⟩
  · have hread := Connection.read_not_live (e := e) (fun hlive : c.Live => hlive.2 h) buf
    exact ⟨congrArg Prod.fst hread, congrArg Prod.snd hread⟩
  · exact ⟨hsame, hnone⟩
  · exact ⟨hended.trans hterminate, hnone⟩

/-! ## What a connection has heard -/

/-- A connection that has come to what one read of some bytes brings it to, but for being terminated. -/
structure Heard (e : Endpoint) (bytes : List UInt8) (handled : List Message) (c : Duplex) : Prop where
  handled : handled = (Connection.start.read e bytes).2
  session : c.toConnection.Same (Connection.start.read e bytes).1 ∨
    c.session = (Connection.start.read e bytes).1.session.terminate

/-- A connection that is not closed goes on like one that has read all the bytes at once. -/
theorem Heard.same (h : Heard e bytes handled c) (hopen : c.session.state ≠ .closed) :
    c.toConnection.Same (Connection.start.read e bytes).1 := by
  rcases h.session with hsame | hended
  · exact hsame
  · exact absurd (congrArg Session.state hended) hopen

/-- A connection that has come to what one read brings it to has queued the same. -/
theorem Heard.sent (h : Heard e bytes handled c) :
    c.session.sent = (Connection.start.read e bytes).1.session.sent := by
  rcases h.session with hsame | hended
  · rw [hsame.1]
  · rw [hended]
    rfl

/-- A connection that has come to what one read brings it to is in the same state, or closed. -/
theorem Heard.state (h : Heard e bytes handled c) :
    c.session.state = .closed ∨ c.session.state = (Connection.start.read e bytes).1.session.state := by
  rcases h.session with hsame | hended
  · exact .inr (congrArg Session.state hsame.1)
  · exact .inl (congrArg Session.state hended)

/-- A connection that is closed has come to what one read brings it to, and is terminated. -/
theorem Heard.terminated (h : Heard e bytes handled c) (hclosed : c.session.state = .closed) :
    c.session = (Connection.start.read e bytes).1.session.terminate := by
  rcases h.session with hsame | hended
  · rw [← hsame.1, Session.terminate, ← hclosed]
  · exact hended

/-- One more read brings a connection to what one read of all the bytes brings it to. -/
theorem Heard.read (h : Heard e bytes handled c) (hopen : c.session.state ≠ .closed) (buf : List UInt8) :
    (c.toConnection.read e buf).1.Same (Connection.start.read e (bytes ++ buf)).1 ∧
      handled ++ (c.toConnection.read e buf).2 = (Connection.start.read e (bytes ++ buf)).2 := by
  have hready : (Connection.start.read e bytes).1.Ready e := (Connection.ready_start e).read bytes
  obtain ⟨hsame, hmsgs⟩ := (h.same hopen).read (e := e) buf
  obtain ⟨happ, hall⟩ := Connection.read_append (Connection.ready_start e) bytes buf
  exact ⟨hsame.trans happ, by rw [h.handled, hmsgs, hall]⟩

/-- One more event keeps what a connection has heard, with the bytes that it reads. -/
theorem Heard.step (h : Heard e bytes handled c) (ev : Event) :
    Heard e (bytes ++ if c.session.state = .closed then [] else ev.bytes) (handled ++ (step e c ev).2)
      (step e c ev).1 := by
  by_cases hclosed : c.session.state = .closed
  · -- The bytes that come are not read any more.
    obtain ⟨hsame, hnone⟩ := step_closed (e := e) hclosed ev
    rw [if_pos hclosed, hnone, List.append_nil, List.append_nil]
    exact ⟨h.handled, by rw [hsame]; exact h.session⟩
  · rw [if_neg hclosed]
    rcases step_cases e c ev with ⟨buf, rfl⟩ | ⟨hbytes, hnone, hsame | hended⟩
    · obtain ⟨hread, hmsgs⟩ := h.read hclosed buf
      exact ⟨hmsgs, .inl hread⟩
    · rw [hbytes, hnone, List.append_nil, List.append_nil]
      exact ⟨h.handled, by rw [hsame]; exact h.session⟩
    · rw [hbytes, hnone, List.append_nil, List.append_nil]
      refine ⟨h.handled, .inr ?_⟩
      rw [hended]
      exact congrArg Session.terminate (h.same hclosed).1

/-- A run keeps what a connection has heard, with the bytes that it reads. -/
theorem Heard.run (h : Heard e bytes handled c) (evs : List Event) :
    Heard e (bytes ++ bytesRead e c evs) (handled ++ ((machine e).outputs c evs).flatten)
      ((machine e).state c evs) := by
  induction evs generalizing c bytes handled with
  | nil => simpa only [bytesRead, Machine.state_nil, Machine.outputs_nil, List.flatten_nil, List.append_nil] using h
  | cons ev evs ih =>
    have hrest := ih (h.step ev)
    rw [List.append_assoc, List.append_assoc] at hrest
    exact hrest

/-- A connection at its start has heard nothing. -/
theorem heard_start (e : Endpoint) : Heard e [] [] start := by
  have hnil : Connection.start.read e [] = (.start, []) := by
    rw [Connection.read, Connection.handleReadFrame_nil, ite_self]
  refine ⟨?_, .inl ?_⟩
  · rw [hnil]
  · rw [hnil]
    exact Connection.Same.refl _

/-- A run comes to what one read of its bytes brings the connection to, but for being terminated. -/
theorem heard_run (e : Endpoint) (evs : List Event) :
    Heard e (bytesRead e start evs) ((machine e).outputs start evs).flatten ((machine e).state start evs) :=
  (heard_start e).run evs

/-! ## The bytes of a run -/

/-- A connection that is closed stays closed. -/
theorem closed_step (h : c.session.state = .closed) (e : Endpoint) (ev : Event) :
    (step e c ev).1.session.state = .closed := by
  have hsame := (step_closed (e := e) h ev).1
  exact (congrArg (·.session.state) hsame).trans h

/-- A connection that is closed stays closed in a run. -/
theorem closed_run (h : c.session.state = .closed) (e : Endpoint) (evs : List Event) :
    ((machine e).state c evs).session.state = .closed :=
  (machine e).invariant (P := fun c => c.session.state = .closed) (fun _ ev hclosed => closed_step hclosed e ev) h evs

/-- A connection that is closed reads nothing. -/
theorem bytesRead_closed (h : c.session.state = .closed) (e : Endpoint) (evs : List Event) :
    bytesRead e c evs = [] := by
  induction evs generalizing c with
  | nil => rfl
  | cons ev evs ih => rw [bytesRead, if_pos h, ih (closed_step h e ev), List.append_nil]

/-- The bytes that are read are the first of those that come. -/
theorem bytesRead_isPrefix (e : Endpoint) (c : Duplex) (evs : List Event) :
    bytesRead e c evs <+: evs.flatMap Event.bytes := by
  induction evs generalizing c with
  | nil => exact List.prefix_rfl
  | cons ev evs ih =>
    rw [bytesRead, List.flatMap_cons]
    split_ifs with hclosed
    · rw [bytesRead_closed (closed_step hclosed e ev)]
      exact List.nil_prefix
    · exact (List.prefix_append_right_inj _).2 (ih _)

/-- Where a run does not close the connection, all the bytes that come are read. -/
theorem bytesRead_eq {evs : List Event} (h : ((machine e).state c evs).session.state ≠ .closed) :
    bytesRead e c evs = evs.flatMap Event.bytes := by
  induction evs generalizing c with
  | nil => rfl
  | cons ev evs ih =>
    have hopen : c.session.state ≠ .closed := fun hclosed => h (closed_run hclosed e (ev :: evs))
    have hrest : bytesRead e (step e c ev).1 evs = evs.flatMap Event.bytes := ih h
    rw [bytesRead, if_neg hopen, hrest, List.flatMap_cons]

/-! ## What closes a connection -/

/-- What is written stays written. -/
theorem written_step (e : Endpoint) (c : Duplex) (ev : Event) : c.written <+: (step e c ev).1.written := by
  cases ev with
  | read buf => exact List.prefix_rfl
  | readError => exact List.prefix_rfl
  | closeHandshakeTimeout => exact List.prefix_rfl
  | writeFrame =>
    show c.written <+: c.writeFrame.written
    unfold writeFrame
    dsimp only
    split_ifs <;> exact List.prefix_rfl
  | handleWriteFrame ec =>
    show c.written <+: (c.handleWriteFrame ec).written
    unfold handleWriteFrame
    split
    · exact List.prefix_rfl
    · dsimp only
      split_ifs
      · exact List.prefix_rfl
      · exact List.prefix_append _ _
      · exact List.prefix_append _ _

/-- A write that ends without an error closes the connection where it has written a terminal message. -/
theorem closed_handleWriteFrame (hopen : c.session.state ≠ .closed)
    (h : (c.handleWriteFrame false).session.state = .closed) :
    ∃ msg ∈ (c.handleWriteFrame false).written, msg.terminal = true := by
  rcases List.eq_nil_or_concat' c.currentMsgs with hnil | ⟨msgs, msg, hcurrent⟩
  · rw [handleWriteFrame_nil hnil] at h
    exact absurd h hopen
  · cases hterminal : msg.terminal with
    | false =>
      rw [handleWriteFrame_plain hcurrent hterminal] at h
      exact absurd h hopen
    | true =>
      rw [handleWriteFrame_terminal hcurrent hterminal]
      refine ⟨msg, ?_, hterminal⟩
      show msg ∈ c.written ++ c.currentMsgs
      rw [hcurrent]
      simp

/-- Where nothing drops a connection, what it has read or written closes it. -/
theorem closed_cases {evs : List Event} (hdrops : ∀ ev ∈ evs, ¬ ev.Drops) (h : Heard e bytes handled c)
    (hc : c.session.state = .closed → (Connection.start.read e bytes).1.session.state = .closed ∨
      ∃ msg ∈ c.written, msg.terminal = true)
    (hclosed : ((machine e).state c evs).session.state = .closed) :
    (Connection.start.read e (bytes ++ bytesRead e c evs)).1.session.state = .closed ∨
      ∃ msg ∈ ((machine e).state c evs).written, msg.terminal = true := by
  induction evs generalizing c bytes handled with
  | nil =>
    rw [bytesRead, List.append_nil]
    exact hc hclosed
  | cons ev evs ih =>
    obtain ⟨hdrop, hdrops⟩ := List.forall_mem_cons.1 hdrops
    rw [bytesRead, ← List.append_assoc]
    -- What the connection has heard, and why it is closed if it is, goes along with the run.
    refine ih hdrops (h.step ev) (fun hstep => ?_) hclosed
    by_cases hwas : c.session.state = .closed
    · rw [if_pos hwas, List.append_nil]
      refine (hc hwas).imp_right fun ⟨msg, hmsg, hterminal⟩ => ?_
      exact ⟨msg, (written_step e c ev).subset hmsg, hterminal⟩
    · rw [if_neg hwas]
      cases ev with
      | read buf =>
        have hsame := (h.read hwas buf).1.1
        exact .inl ((congrArg Session.state hsame).symm.trans hstep)
      | readError => exact absurd trivial hdrop
      | closeHandshakeTimeout => exact absurd trivial hdrop
      | writeFrame =>
        have hsame := congrArg (·.session.state) c.writeFrame_connection
        exact absurd (hsame.symm.trans hstep) hwas
      | handleWriteFrame ec =>
        have hec : ec = false := Bool.eq_false_iff.2 hdrop
        subst hec
        exact .inr (closed_handleWriteFrame hwas hstep)

/-- Where nothing drops a connection, it is closed when it has read an error after a close frame or when it has
written a terminal message. -/
theorem closed_iff {evs : List Event} (hdrops : ∀ ev ∈ evs, ¬ ev.Drops) :
    ((machine e).state start evs).session.state = .closed ↔
      (Connection.start.read e (bytesRead e start evs)).1.session.state = .closed ∨
        ∃ msg ∈ ((machine e).state start evs).written, msg.terminal = true := by
  constructor
  · intro hclosed
    have hopen : start.session.state ≠ .closed := by decide
    exact closed_cases hdrops (heard_start e) (fun h => absurd h hopen) hclosed
  · rintro (hclosed | ⟨msg, hmsg, hterminal⟩)
    · exact (heard_run e evs).state.elim id fun hstate => hstate.trans hclosed
    · exact (written_run e evs).closed hmsg hterminal

/-- Where nothing drops a connection, a connection that is closed has come to the end of what is handled. -/
theorem not_open_of_closed {evs : List Event} (hdrops : ∀ ev ∈ evs, ¬ ev.Drops)
    (hclosed : ((machine e).state start evs).session.state = .closed) :
    (Connection.start.read e (bytesRead e start evs)).1.session.state ≠ .open := by
  intro hopen
  rcases (closed_iff hdrops).1 hclosed with hclosed' | ⟨msg, hmsg, hterminal⟩
  · rw [hopen] at hclosed'
    cases hclosed'
  · -- A terminal message is queued only for a close frame or for an error.
    have hsent := (written_run e evs).isPrefix.subset (List.mem_append_left _ hmsg)
    rw [(heard_run e evs).sent] at hsent
    rw [Connection.not_terminal_of_open hopen msg hsent] at hterminal
    cases hterminal

/-! ## Runs and reads -/

/-- **A connection is what its bytes make of it,** however they are cut into reads and whenever it writes. As long as
it is not closed, it has the session that one read of all the bytes brings it to, and where it reads on it is the same
connection; once it is closed, it is what one read of the bytes before that brings it to, but closed. Where neither
the transport nor the timer drops it, the messages that are handled are those of all the bytes in any case. -/
theorem run_eq_read (e : Endpoint) (evs : List Event) :
    let c := (machine e).state start evs
    let handled := ((machine e).outputs start evs).flatten
    let bytes := evs.flatMap Event.bytes
    let heard := bytesRead e start evs
    heard <+: bytes ∧
    handled = (Connection.start.read e heard).2 ∧
    (c.session.state ≠ .closed → heard = bytes ∧ c.session = (Connection.start.read e bytes).1.session ∧
      (c.Live → c.toConnection = (Connection.start.read e bytes).1)) ∧
    (c.session.state = .closed → c.session = (Connection.start.read e heard).1.session.terminate) ∧
    ((∀ ev ∈ evs, ¬ ev.Drops) → handled = (Connection.start.read e bytes).2) := by
  have h := heard_run e evs
  refine ⟨bytesRead_isPrefix e start evs, h.handled, fun hopen => ?_, h.terminated, fun hdrops => ?_⟩
  · have hbytes := bytesRead_eq hopen
    have hsame := h.same hopen
    rw [hbytes] at hsame
    exact ⟨hbytes, hsame⟩
  · rw [h.handled]
    by_cases hclosed : ((machine e).state start evs).session.state = .closed
    · -- The bytes after the close would not have been handled either.
      obtain ⟨more, hmore⟩ := bytesRead_isPrefix e start evs
      rw [← hmore, Connection.read_append_of_not_open (not_open_of_closed hdrops hclosed)]
    · rw [bytesRead_eq hclosed]

/-- **What a connection answers,** in any run. The message handler gets the data messages before the first close frame,
of those that are read; what is queued are the replies to the messages that are read, and a close frame for an error
where no close frame came before it. Unless the connection is closed, it is open, or closing after a close frame or an
error. Where nothing drops it, it is closed exactly when an error came after a close frame or a terminal message is
written. -/
theorem run_answers (e : Endpoint) (evs : List Event) :
    let c := (machine e).state start evs
    let decoded := Processor.construct.decode e (bytesRead e start evs)
    let hasClose := ∃ msg ∈ decoded.1, msg.opcode = .close
    ((machine e).outputs start evs).flatten = WebSocket.handled decoded.1 ∧
    (match decoded.2 with
    | .ok _ =>
      c.session.sent = frames e (replies e decoded.1) ∧
      (c.session.state = .closed ∨ c.session.state = if hasClose then .closing else .open)
    | .error ec =>
      c.session.sent = frames e (replies e decoded.1 ++ if hasClose then [] else [errorReply ec]) ∧
      (c.session.state = .closed ∨ c.session.state = if hasClose then .closed else .closing)) ∧
    ((∀ ev ∈ evs, ¬ ev.Drops) →
      (c.session.state = .closed ↔
        (hasClose ∧ ∃ ec, decoded.2 = .error ec) ∨ ∃ msg ∈ c.written, msg.terminal = true)) := by
  have h := heard_run e evs
  refine ⟨h.handled.trans (Connection.read_handled e _), ?_, fun hdrops => ?_⟩
  · cases hout : (Processor.construct.decode e (bytesRead e start evs)).2 with
    | ok m =>
      obtain ⟨hsent, hstate⟩ := Connection.read_of_ok hout
      exact ⟨h.sent.trans hsent, h.state.imp_right fun hsame => hsame.trans hstate⟩
    | error ec =>
      obtain ⟨hsent, hstate⟩ := Connection.read_of_error hout
      exact ⟨h.sent.trans hsent, h.state.imp_right fun hsame => hsame.trans hstate⟩
  · rw [closed_iff hdrops]
    refine or_congr_left ?_
    cases hout : (Processor.construct.decode e (bytesRead e start evs)).2 with
    | ok m =>
      obtain ⟨-, hstate⟩ := Connection.read_of_ok hout
      rw [hstate]
      split_ifs <;> simp
    | error ec =>
      obtain ⟨-, hstate⟩ := Connection.read_of_error hout
      rw [hstate]
      split_ifs with hclosed
      · simpa using hclosed
      · simpa using hclosed

/-- A server that has written its answer to a close frame is closed and does not answer a bad one after it. -/
example :
    let c := (machine ⟨true, 100, fun _ _ => 0⟩).state start
      [.read [0x88, 0x80, 0, 0, 0, 0], .writeFrame, .handleWriteFrame false, .read [0x88, 0x81, 0, 0, 0, 0, 65]]
    c.session.sent.length = 1 ∧ c.written.length = 1 ∧ c.session.state = .closed := by decide +kernel

/-- A server that reads both close frames at once has queued two answers, of which the first is written. -/
example :
    let c := (machine ⟨true, 100, fun _ _ => 0⟩).state start
      [.read [0x88, 0x80, 0, 0, 0, 0, 0x88, 0x81, 0, 0, 0, 0, 65], .writeFrame, .handleWriteFrame false]
    c.session.sent.length = 2 ∧ c.written.length = 1 ∧ c.session.state = .closed := by decide +kernel

end Duplex

end Typhoon.WebSocket
