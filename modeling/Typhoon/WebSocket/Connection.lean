import Typhoon.WebSocket.Session

/-!
# The connection

`connection` of `websocketpp/impl/connection_impl.hpp`, as it reads: `handle_read_frame` gives the bytes that have
arrived to the processor, and the messages that come out of it to the session. `Duplex` adds what it writes.
-/

namespace Typhoon.WebSocket

/-- `connection`. -/
structure Connection where
  processor : Processor
  session : Session

namespace Connection

/-- A connection at the end of its handshake. -/
def start : Connection := ⟨.construct, .start⟩

/-- The loop of `handle_read_frame` on the bytes that are left: the message handler is called with those
listed. -/
def handleReadFrame (e : Endpoint) (c : Connection) (buf : List UInt8) : Connection × List Message :=
  if buf = [] then (c, [])
  else
    match c.processor.consume e buf with
    | .error ec => ({ c with session := c.session.fail e ec }, [])
    | .ok (m, rest) =>
      let (msg, m) := m.getMessage
      let (session, msgs) :=
        match msg with
        | some msg => c.session.receive e msg
        | none => (c.session, [])
      -- A processor that is not ready takes bytes.
      if rest.length < buf.length then
        let (c, msgs') := handleReadFrame e ⟨m, session⟩ rest
        (c, msgs ++ msgs')
      else (⟨m, session⟩, msgs)
termination_by buf.length

/-- Whether there are more reads: none come after an error, nor once the connection is terminated, which shuts its
transport down. What a message or an error would still do to a session then is nothing (`Session.receive_closed`,
`Session.fail_closed`). -/
def Live (c : Connection) : Prop := c.session.reading ∧ c.session.state ≠ .closed

/-- Both conditions are looked up in the session. -/
instance (c : Connection) : Decidable c.Live := inferInstanceAs (Decidable (_ ∧ _))

/-- `handle_read_frame` on the bytes of a read. -/
def read (e : Endpoint) (c : Connection) (buf : List UInt8) : Connection × List Message :=
  if c.Live then handleReadFrame e c buf else (c, [])

/-- Reads, one after another and with no write that ends between them, with the messages that the message handler
is called with. -/
def reads (e : Endpoint) (c : Connection) : List (List UInt8) → Connection × List Message
  | [] => (c, [])
  | buf :: bufs =>
    let (c, handled) := c.read e buf
    let (c, handled') := reads e c bufs
    (c, handled ++ handled')

/-- No bytes are read where there are no more reads. -/
theorem read_not_live {e : Endpoint} {c : Connection} (h : ¬ c.Live) (buf : List UInt8) :
    c.read e buf = (c, []) := if_neg h

/-- What the bytes of a read make a connection send is queued after all that was queued before. -/
theorem sent_handleReadFrame (e : Endpoint) (c : Connection) (buf : List UInt8) :
    c.session.sent <+: (c.handleReadFrame e buf).1.session.sent := by
  rw [handleReadFrame]
  split_ifs with hbuf
  · exact List.prefix_rfl
  cases c.processor.consume e buf with
  | error ec => exact Session.sent_fail e c.session ec
  | ok r =>
    obtain ⟨m, rest⟩ := r
    dsimp only
    generalize m.getMessage = got
    obtain ⟨msg, m'⟩ := got
    cases msg with
    | none =>
      dsimp only
      split_ifs with hlt
      · exact sent_handleReadFrame e ⟨m', c.session⟩ rest
      · exact List.prefix_rfl
    | some msg =>
      dsimp only
      have hone := Session.sent_receive e c.session msg
      split_ifs with hlt
      · exact hone.trans (sent_handleReadFrame e ⟨m', (c.session.receive e msg).1⟩ rest)
      · exact hone
termination_by buf.length

/-- What a read makes a connection send is queued after all that was queued before. -/
theorem sent_read (e : Endpoint) (c : Connection) (buf : List UInt8) :
    c.session.sent <+: (c.read e buf).1.session.sent := by
  unfold read
  split_ifs
  · exact sent_handleReadFrame e c buf
  · exact List.prefix_rfl

end Connection

end Typhoon.WebSocket
