import Typhoon.WebSocket.Closing
import Typhoon.WebSocket.Connection
import Typhoon.WebSocket.Sound

/-!
# Bytes as they arrive

How the bytes of a stream are cut into reads is up to the network. As it reads, a connection does not depend on it:
`reads_eq_read_flatten` says that any reads one after another do what one read of all their bytes does, and
`read_of_ok` and `read_of_error` what that is. The argument is made for a pass of the loop of `consume`
(`pass_append`): where a pass has all the bytes that it needs, more bytes change nothing, and where it has not, the
pass that comes with the next read goes on from there.
-/

namespace Typhoon.WebSocket

/-! ## Payloads in pieces -/

/-- Unmasked bytes that are put into a message in two pieces. -/
theorem MsgMetadata.process_false_append (a b : List UInt8) (md : MsgMetadata) :
    md.process false (a ++ b) = (md.process false a).bind fun md => md.process false b := by
  unfold MsgMetadata.process
  by_cases htext : md.message.opcode = .text
  · simp only [Bool.false_eq_true, if_false, htext, if_true, Validator.decode_append]
    cases hvalid : (md.validator.decode a).2 with
    | false => simp [Except.bind, hvalid]
    | true => simp [Except.bind, List.append_assoc]
  · simp [Except.bind, htext, List.append_assoc]

/-- Masked bytes are unmasked first. -/
theorem MsgMetadata.process_true (buf : List UInt8) (md : MsgMetadata) :
    md.process true buf =
      ({ md with preparedKey := (byteMaskCirc buf md.preparedKey).2 }).process false
        (byteMaskCirc buf md.preparedKey).1 := rfl

/-- The masking key does not matter to unmasked bytes. -/
theorem MsgMetadata.process_false_key (buf : List UInt8) (md : MsgMetadata) (k : PreparedKey) :
    ({ md with preparedKey := k }).process false buf =
      (md.process false buf).map fun md => { md with preparedKey := k } := by
  unfold MsgMetadata.process
  simp only [Bool.false_eq_true, if_false]
  split_ifs <;> rfl

/-- A payload that is processed in two pieces. -/
theorem MsgMetadata.process_append (masked : Bool) (a b : List UInt8) (md : MsgMetadata) :
    md.process masked (a ++ b) = (md.process masked a).bind fun md => md.process masked b := by
  cases masked with
  | false => exact process_false_append a b md
  | true =>
    simp only [process_true, byteMaskCirc_append, process_false_append, process_false_key]
    cases md.process false (byteMaskCirc a md.preparedKey).1 with
    | error ec => rfl
    | ok md' =>
      simp only [Except.bind, Except.map, process_false_key]
      cases md'.process false (byteMaskCirc b (byteMaskCirc a md.preparedKey).2).1 <;> rfl

namespace Processor

variable {e : Endpoint} {m : Processor}

/-- A payload that is processed in two pieces. -/
theorem processPayloadBytes_append (m : Processor) (a b : List UInt8) :
    m.processPayloadBytes (a ++ b) = (m.processPayloadBytes a).bind fun m => m.processPayloadBytes b := by
  unfold processPayloadBytes current setCurrent
  cases hcur : m.currentMsg with
  | data =>
    cases hmd : m.dataMsg with
    | none => simp [Except.bind, Nat.sub_sub]
    | some md =>
      simp only [MsgMetadata.process_append]
      cases md.process m.basicHeader.getMasked a with
      | error ec => rfl
      | ok md' => simp [Except.bind, Nat.sub_sub]
  | control =>
    cases hmd : m.controlMsg with
    | none => simp [Except.bind, Nat.sub_sub]
    | some md =>
      simp only [MsgMetadata.process_append]
      cases md.process m.basicHeader.getMasked a with
      | error ec => rfl
      | ok md' => simp [Except.bind, Nat.sub_sub]

/-! ## Passes -/

/-- Bytes of the basic header that are read in two pieces. -/
theorem copyBasicHeaderBytes_append (m : Processor) {a b : List UInt8} (hb : b ≠ [])
    (ha : m.bytesNeeded = 0 ∨ a ≠ []) :
    m.copyBasicHeaderBytes (a ++ b) = ((m.copyBasicHeaderBytes a).1, (m.copyBasicHeaderBytes a).2 ++ b) ∨
    ((m.copyBasicHeaderBytes a).2 = [] ∧ (m.copyBasicHeaderBytes a).1.bytesNeeded ≠ 0 ∧
      (m.copyBasicHeaderBytes a).1.state = m.state ∧
      m.copyBasicHeaderBytes (a ++ b) = (m.copyBasicHeaderBytes a).1.copyBasicHeaderBytes b) := by
  by_cases h0 : m.bytesNeeded = 0
  · exact .inl (by rw [copyBasicHeaderBytes_zero h0, copyBasicHeaderBytes_zero h0])
  have hne := ha.resolve_left h0
  match a, b with
  | [], _ => exact absurd rfl hne
  | _, [] => exact absurd rfl hb
  | [x], y :: b =>
    by_cases h2 : m.bytesNeeded = 2
    · right
      cases b <;> simp [copyBasicHeaderBytes, h2]
    · left
      simp [copyBasicHeaderBytes, h2, h0]
  | x :: x' :: a, y :: b =>
    left
    by_cases h2 : m.bytesNeeded = 2 <;> simp [copyBasicHeaderBytes, h2, h0]

/-- Bytes that are taken from a prefix which has as many as are needed. -/
theorem take_drop_of_le {n : ℕ} {a : List UInt8} (h : n ≤ a.length) (b : List UInt8) :
    (a ++ b).take (min n (a ++ b).length) = a.take (min n a.length) ∧
      (a ++ b).drop (min n (a ++ b).length) = a.drop (min n a.length) ++ b := by
  have hn : min n (a ++ b).length = n := by
    rw [List.length_append]
    omega
  rw [hn, min_eq_left h, List.take_append_of_le_length h, List.drop_append_of_le_length h]
  exact ⟨rfl, rfl⟩

/-- Bytes that are taken from a prefix which has too few. -/
theorem take_drop_of_lt {n : ℕ} {a : List UInt8} (h : a.length < n) (b : List UInt8) :
    (a ++ b).take (min n (a ++ b).length) = a ++ b.take (min (n - a.length) b.length) ∧
      (a ++ b).drop (min n (a ++ b).length) = b.drop (min (n - a.length) b.length) := by
  have hn : min n (a ++ b).length = a.length + min (n - a.length) b.length := by
    rw [List.length_append]
    omega
  rw [hn, List.take_length_add_append, List.drop_length_add_append]
  exact ⟨rfl, rfl⟩

/-- Where the bytes of the extended header are all there, more bytes are left. -/
theorem copyExtendedHeaderBytes_of_le {a : List UInt8} (h : m.bytesNeeded ≤ a.length) (b : List UInt8) :
    m.copyExtendedHeaderBytes (a ++ b) =
      ((m.copyExtendedHeaderBytes a).1, (m.copyExtendedHeaderBytes a).2 ++ b) := by
  unfold copyExtendedHeaderBytes
  obtain ⟨htake, hdrop⟩ := take_drop_of_le h b
  dsimp only
  rw [htake, hdrop, List.length_append, min_eq_left h, min_eq_left (h.trans (Nat.le_add_right _ _))]

/-- Where they are not, those that are needed then come from the bytes after them. -/
theorem copyExtendedHeaderBytes_of_lt {a : List UInt8} (h : a.length < m.bytesNeeded) (b : List UInt8) :
    m.copyExtendedHeaderBytes (a ++ b) = (m.copyExtendedHeaderBytes a).1.copyExtendedHeaderBytes b := by
  unfold copyExtendedHeaderBytes
  obtain ⟨htake, hdrop⟩ := take_drop_of_lt h b
  dsimp only
  rw [htake, min_eq_right h.le, List.take_length, hdrop, List.append_assoc, List.length_append]
  congr 2
  omega

/-- A pass on two pieces of the bytes does what it does on the first, or what two passes do. -/
theorem pass_append {a b : List UInt8} (hc : m.Continues a) (hb : b ≠ []) :
    m.pass e (a ++ b) = (m.pass e a).map (fun r => (r.1, r.2 ++ b)) ∨
    ∃ m', m.pass e a = .ok (m', []) ∧ m'.state = m.state ∧ m'.bytesNeeded ≠ 0 ∧
      m.pass e (a ++ b) = m'.pass e b := by
  obtain ⟨hready, hfatal, ha⟩ := hc
  unfold pass
  cases hstate : m.state with
  | headerBasic =>
    dsimp only
    rcases copyBasicHeaderBytes_append m hb ha.symm with happ | ⟨hnil, hneed, hst, happ⟩
    · left
      rw [happ]
      dsimp only
      split_ifs
      · rfl
      · split <;> rfl
    · refine .inr ⟨(m.copyBasicHeaderBytes a).1, ?_, hst.trans hstate, hneed, ?_⟩
      · rw [if_pos (Nat.pos_of_ne_zero hneed), hnil]
      · rw [happ, hst, hstate]
  | headerExtended =>
    dsimp only
    by_cases hle : m.bytesNeeded ≤ a.length
    · left
      rw [copyExtendedHeaderBytes_of_le hle]
      dsimp only
      split_ifs
      · rfl
      · split
        · rfl
        · split <;> rfl
    · have hlt := not_le.1 hle
      have hneed : (m.copyExtendedHeaderBytes a).1.bytesNeeded ≠ 0 := by
        simp only [copyExtendedHeaderBytes]
        omega
      have hnil : (m.copyExtendedHeaderBytes a).2 = [] := by
        simp only [copyExtendedHeaderBytes]
        rw [min_eq_right hlt.le, List.drop_length]
      refine .inr ⟨(m.copyExtendedHeaderBytes a).1, ?_, hstate, hneed, ?_⟩
      · rw [if_pos (Nat.pos_of_ne_zero hneed), hnil]
      · rw [copyExtendedHeaderBytes_of_lt hlt, show (m.copyExtendedHeaderBytes a).1.state = _ from hstate]
  | extension => exact .inl rfl
  | application =>
    dsimp only
    by_cases hle : m.bytesNeeded ≤ a.length
    · left
      obtain ⟨htake, hdrop⟩ := take_drop_of_le hle b
      have hmin : min m.bytesNeeded (a ++ b).length = min m.bytesNeeded a.length := by
        rw [List.length_append]
        omega
      rw [htake, hdrop, hmin]
      split
      · rfl
      · split_ifs
        · rfl
        · split <;> rfl
    · have hlt := not_le.1 hle
      have hne : a ≠ [] := ha.resolve_right (Nat.ne_of_gt (hlt.trans_le' (Nat.zero_le _)))
      have hapos := List.length_pos_iff.2 hne
      have hbpos := List.length_pos_iff.2 hb
      obtain ⟨htake, hdrop⟩ := take_drop_of_lt hlt b
      have hpos : 0 < min m.bytesNeeded (a ++ b).length := by
        rw [List.length_append]
        omega
      rw [if_pos hpos, htake, hdrop, processPayloadBytes_append, min_eq_right hlt.le, if_pos hapos,
        List.take_length, List.drop_length]
      cases hpay : m.processPayloadBytes a with
      | error ec => exact .inl rfl
      | ok m' =>
        have hst := state_of_processPayloadBytes hpay
        have hneed := bytesNeeded_of_processPayloadBytes hpay
        have hneed' : m'.bytesNeeded ≠ 0 := by omega
        have hpos' : 0 < min m'.bytesNeeded b.length := by omega
        refine .inr ⟨m', if_pos (Nat.pos_of_ne_zero hneed'), hst.trans hstate, hneed', ?_⟩
        rw [hst, hstate]
        dsimp only
        rw [if_pos hpos', hneed]
        rfl
  | ready => exact absurd hstate hready
  | fatalError => exact absurd hstate hfatal

/-- The loop on two pieces of the bytes is the loop on the first, and then on what it leaves and the second.
-/
theorem consume_append (e : Endpoint) (m : Processor) (a b : List UInt8) :
    m.consume e (a ++ b) = (m.consume e a).bind fun r => r.1.consume e (r.2 ++ b) := by
  by_cases hb : b = []
  · subst hb
    rw [List.append_nil]
    cases hres : m.consume e a with
    | error ec => rfl
    | ok r =>
      have hover := (consume_rule (P := fun _ _ => True) (fun _ _ _ => trivial) trivial hres).2
      rw [Except.bind, List.append_nil, consume_of_not_continues hover]
  by_cases hc : m.Continues a
  · have hc' : m.Continues (a ++ b) :=
      ⟨hc.1, hc.2.1, .inl fun h => hb (List.append_eq_nil_iff.1 h).2⟩
    rcases pass_append (e := e) hc hb with happ | ⟨m', hpass, hstate, hneed, happ⟩
    · cases hpass : m.pass e a with
      | error ec =>
        rw [hpass] at happ
        rw [consume_of_pass_error hc hpass, consume_of_pass_error hc' happ]
        rfl
      | ok r =>
        have hlt := pass_lt hc hpass
        rw [hpass] at happ
        rw [consume_of_pass hc hpass, consume_of_pass hc' happ]
        exact consume_append e r.1 r.2 b
    · -- The pass has read all of `a`, and the bytes of `b` go into the same part of the frame.
      have hover : ¬ m'.Continues [] := fun h => h.2.2.elim (fun h => h rfl) hneed
      have hc'' : m'.Continues b := ⟨hstate ▸ hc.1, hstate ▸ hc.2.1, .inl hb⟩
      rw [consume_of_pass hc hpass, consume_of_not_continues hover, Except.bind, List.nil_append]
      cases hpass' : m'.pass e b with
      | error ec => rw [consume_of_pass_error hc' (happ.trans hpass'), consume_of_pass_error hc'' hpass']
      | ok r => rw [consume_of_pass hc' (happ.trans hpass'), consume_of_pass hc'' hpass']
  · rw [consume_of_not_continues hc]
    rfl
termination_by 4 * a.length + m.rank

/-- A processor that waits takes bytes. -/
theorem Waiting.length_lt {m' : Processor} {buf rest : List UInt8} (h : m.Waiting e) (hbuf : buf ≠ [])
    (hok : m.consume e buf = .ok (m', rest)) : rest.length < buf.length := by
  have hc : m.Continues buf := ⟨h.notReady, h.running.2, .inl hbuf⟩
  cases hpass : m.pass e buf with
  | error ec =>
    rw [consume_of_pass_error hc hpass] at hok
    cases hok
  | ok r =>
    obtain ⟨m₁, buf₁⟩ := r
    rw [consume_of_pass hc hpass] at hok
    have hlt := (passed_of_pass hc hpass).length_lt h.running.1 h.needs hbuf
    have hle : rest.length ≤ buf₁.length := by
      refine (consume_rule (P := fun _ rest => rest.length ≤ buf₁.length) ?_ le_rfl hok).1
      intro m₂ buf₂ m₃ rest₃ hle hc hp
      exact (hp.length_le hc).trans hle
    exact hle.trans_lt hlt

/-! ## The messages in a stream -/

/-- The messages that a processor gets out of some bytes, and the processor after them if there is no error. -/
def decode (e : Endpoint) (m : Processor) (buf : List UInt8) : List Message × Except ErrorCode Processor :=
  match m.consume e buf with
  | .error ec => ([], .error ec)
  | .ok (m, rest) =>
    match m.getMessage with
    | (none, m) => ([], .ok m)
    | (some msg, m) =>
      if rest.length < buf.length then
        let (msgs, out) := decode e m rest
        (msg :: msgs, out)
      else ([msg], .ok m)
termination_by buf.length

/-- The ways in which a processor that waits goes on: with an error, with all bytes read, or with a message. -/
theorem Waiting.decode_cases (h : m.Waiting e) (buf : List UInt8) :
    (∃ ec, m.consume e buf = .error ec ∧ m.decode e buf = ([], .error ec)) ∨
    (∃ m', m'.Waiting e ∧ m.consume e buf = .ok (m', []) ∧ m'.getMessage = (none, m') ∧
      m.decode e buf = ([], .ok m')) ∨
    (∃ m₁ m' msg rest, m'.Waiting e ∧ Received msg ∧ rest.length < buf.length ∧ m₁.state = .ready ∧
      m.consume e buf = .ok (m₁, rest) ∧ m₁.getMessage = (some msg, m') ∧
      m.decode e buf = (msg :: (m'.decode e rest).1, (m'.decode e rest).2)) := by
  rw [decode]
  cases hres : m.consume e buf with
  | error ec => exact .inl ⟨ec, rfl, rfl⟩
  | ok r =>
    obtain ⟨m₁, rest⟩ := r
    right
    by_cases hready : m₁.state = .ready
    · right
      have hsound := (h.toSound.consume hres).1
      obtain ⟨md, hmd, hreceived, hget, hwait⟩ := hsound.getMessage hready
      have hbuf : buf ≠ [] := by
        rintro rfl
        rw [consume_of_not_continues fun hc => hc.2.2.elim (fun h => h rfl) h.needs] at hres
        cases hres
        exact h.notReady hready
      have hlt := h.length_lt hbuf hres
      refine ⟨m₁, _, md.message, rest, hwait, hreceived, hlt, hready, rfl, hget, ?_⟩
      simp only [hget, if_pos hlt]
    · left
      obtain ⟨hwait, rfl⟩ := h.toSound.waiting_of_consume hres hready
      have hget : m₁.getMessage = (none, m₁) := if_neg (by simp [ready, hready])
      exact ⟨m₁, hwait, rfl, hget, by simp only [hget]⟩

/-- No bytes give no messages. -/
theorem Waiting.decode_nil (h : m.Waiting e) : m.decode e [] = ([], .ok m) := by
  have hover : ¬ m.Continues [] := fun hc => hc.2.2.elim (fun h => h rfl) h.needs
  have hget : m.getMessage = (none, m) := if_neg (by simp [ready, h.notReady])
  rw [decode, consume_of_not_continues hover]
  simp only [hget]

/-- What comes after some bytes, if there was no error in them. -/
def resume (e : Endpoint) (out : Except ErrorCode Processor) (buf : List UInt8) :
    List Message × Except ErrorCode Processor :=
  match out with
  | .error ec => ([], .error ec)
  | .ok m => m.decode e buf

/-- The messages in two pieces of a stream are those of the first and then those of the second. -/
theorem Waiting.decode_append {m : Processor} (h : m.Waiting e) (a b : List UInt8) :
    m.decode e (a ++ b) = ((m.decode e a).1 ++ (resume e (m.decode e a).2 b).1,
      (resume e (m.decode e a).2 b).2) := by
  have happ := consume_append e m a b
  rcases h.decode_cases a with ⟨ec, hres, hdec⟩ | ⟨m', hwait, hres, hget, hdec⟩ |
    ⟨m₁, m', msg, rest, hwait, -, hlt, hready, hres, hget, hdec⟩
  · rw [hres] at happ
    rw [hdec, decode, happ]
    rfl
  · -- All of `a` is read, and the processor that waits after it goes on with `b`.
    rw [hres] at happ
    rw [hdec, resume, List.nil_append, decode, happ, Except.bind, List.nil_append]
    rcases hwait.decode_cases b with ⟨ec, hres', hdec'⟩ | ⟨m'', -, hres', hget', hdec'⟩ |
      ⟨m₁, m'', msg, rest, -, -, hlt, -, hres', hget', hdec'⟩
    · simp only [hres', hdec']
    · simp only [hres', hget', hdec']
    · have hlt' : rest.length < (a ++ b).length := by
        rw [List.length_append]
        omega
      simp only [hres', hget', hdec', if_pos hlt']
  · rw [hres] at happ
    have hover : ¬ m₁.Continues (rest ++ b) := fun hc => hc.1 hready
    have hlt' : (rest ++ b).length < (a ++ b).length := by
      rw [List.length_append, List.length_append]
      omega
    rw [hdec, decode, happ, Except.bind, consume_of_not_continues hover]
    simp only [hget, if_pos hlt', hwait.decode_append rest b, List.cons_append]
termination_by a.length

/-- The processor after some bytes waits. -/
theorem Waiting.decode {m m' : Processor} (h : m.Waiting e) {buf : List UInt8}
    (hok : (m.decode e buf).2 = .ok m') : m'.Waiting e := by
  rcases h.decode_cases buf with ⟨ec, -, hdec⟩ | ⟨m₁, hwait, -, -, hdec⟩ |
    ⟨m₁, m₂, msg, rest, hwait, -, hlt, -, -, -, hdec⟩
  · rw [hdec] at hok
    cases hok
  · rw [hdec] at hok
    cases hok
    exact hwait
  · rw [hdec] at hok
    exact hwait.decode hok
termination_by buf.length

end Processor

/-! ## Reads -/

namespace Connection

/-- No bytes change nothing. -/
theorem handleReadFrame_nil (e : Endpoint) (c : Connection) : c.handleReadFrame e [] = (c, []) := by
  rw [handleReadFrame, if_pos rfl]

/-- `handle_read_frame` is the processor, and then the session with the messages that it gets. -/
theorem handleReadFrame_eq {e : Endpoint} {m : Processor} (h : m.Waiting e) (c : Session) (buf : List UInt8) :
    (handleReadFrame e ⟨m, c⟩ buf).2 = (c.receiveAll e (m.decode e buf).1).2 ∧
    (∀ m', (m.decode e buf).2 = .ok m' →
      (handleReadFrame e ⟨m, c⟩ buf).1 = ⟨m', (c.receiveAll e (m.decode e buf).1).1⟩) ∧
    (∀ ec, (m.decode e buf).2 = .error ec →
      (handleReadFrame e ⟨m, c⟩ buf).1.session = (c.receiveAll e (m.decode e buf).1).1.fail e ec) := by
  by_cases hbuf : buf = []
  · subst hbuf
    rw [handleReadFrame_nil, h.decode_nil]
    refine ⟨rfl, fun m' hm => ?_, fun ec hec => ?_⟩
    · cases hm
      rfl
    · cases hec
  rw [handleReadFrame, if_neg hbuf]
  rcases h.decode_cases buf with ⟨ec, hres, hdec⟩ | ⟨m', hwait, hres, hget, hdec⟩ |
    ⟨m₁, m', msg, rest, hwait, -, hlt, -, hres, hget, hdec⟩
  · rw [hres, hdec]
    refine ⟨rfl, fun m' hm => ?_, fun ec hec => ?_⟩
    · cases hm
    · cases hec
      rfl
  · rw [hres, hdec]
    simp only [hget, List.length_nil, if_pos (List.length_pos_iff.2 hbuf), handleReadFrame_nil]
    refine ⟨rfl, fun m' hm => ?_, fun ec hec => ?_⟩
    · cases hm
      rfl
    · cases hec
  · obtain ⟨hmsgs, hok, herr⟩ := handleReadFrame_eq hwait (c.receive e msg).1 rest
    rw [hres, hdec]
    simp only [hget, if_pos hlt, Session.receiveAll, hmsgs]
    exact ⟨trivial, hok, herr⟩
termination_by buf.length

/-! ## Reads one after another -/

/-- Connections that go on alike: the processor is of no account once nothing is read. -/
def Same (c c' : Connection) : Prop := c.session = c'.session ∧ (c.Live → c = c')

/-- A connection goes on like itself. -/
theorem Same.refl (c : Connection) : c.Same c := ⟨rfl, fun _ => rfl⟩

/-- The processor of a connection waits for bytes as long as some are read. -/
def Ready (e : Endpoint) (c : Connection) : Prop := c.Live → c.processor.Waiting e

/-- What a read does: the messages, and either there was no error or nothing is read any more. -/
theorem read_live {e : Endpoint} {m : Processor} {c : Session} (hlive : Live ⟨m, c⟩) (h : m.Waiting e)
    (buf : List UInt8) :
    (read e ⟨m, c⟩ buf).2 = (c.receiveAll e (m.decode e buf).1).2 ∧
    (∀ m', (m.decode e buf).2 = .ok m' →
      (read e ⟨m, c⟩ buf).1 = ⟨m', (c.receiveAll e (m.decode e buf).1).1⟩) ∧
    (∀ ec, (m.decode e buf).2 = .error ec →
      (read e ⟨m, c⟩ buf).1.session = (c.receiveAll e (m.decode e buf).1).1.fail e ec ∧
      ¬ (read e ⟨m, c⟩ buf).1.Live) := by
  rw [read, if_pos hlive]
  obtain ⟨hmsgs, hok, herr⟩ := handleReadFrame_eq h c buf
  refine ⟨hmsgs, hok, fun ec hec => ⟨herr ec hec, ?_⟩⟩
  rw [Live, herr ec hec]
  exact Session.fail_not_reading e _ ec

/-- A connection stays ready. -/
theorem Ready.read {e : Endpoint} {c : Connection} (h : c.Ready e) (buf : List UInt8) :
    (c.read e buf).1.Ready e := by
  intro hlive'
  by_cases hlive : c.Live
  · obtain ⟨-, hok, herr⟩ := read_live hlive (h hlive) buf
    cases hout : (c.processor.decode e buf).2 with
    | ok m' =>
      rw [hok m' hout]
      exact (h hlive).decode hout
    | error ec => exact absurd hlive' (herr ec hout).2
  · rw [read_not_live hlive] at hlive' ⊢
    exact absurd hlive' hlive

/-- Two reads do what one read of all their bytes does. -/
theorem read_append {e : Endpoint} {c : Connection} (h : c.Ready e) (a b : List UInt8) :
    ((c.read e a).1.read e b).1.Same (c.read e (a ++ b)).1 ∧
      (c.read e (a ++ b)).2 = (c.read e a).2 ++ ((c.read e a).1.read e b).2 := by
  by_cases hlive : c.Live
  · have hwait := h hlive
    have happ := hwait.decode_append a b
    obtain ⟨hmsgs, hok, herr⟩ := read_live hlive hwait a
    obtain ⟨hmsgs', hok', herr'⟩ := read_live hlive hwait (a ++ b)
    rw [happ, Session.receiveAll_append] at hmsgs' hok' herr'
    rw [hmsgs']
    cases hout : (c.processor.decode e a).2 with
    | error ec =>
      obtain ⟨hsession, hdead⟩ := herr ec hout
      obtain ⟨hsession', -⟩ := herr' ec (by rw [hout]; rfl)
      rw [read_not_live hdead, hmsgs]
      rw [hout] at hsession'
      exact ⟨⟨hsession.trans hsession'.symm, fun h => absurd h hdead⟩, rfl⟩
    | ok m' =>
      rw [hout] at hok' herr'
      have hfirst := hok m' hout
      rw [hfirst, hmsgs]
      by_cases hlive₁ : Live ⟨m', (c.session.receiveAll e (c.processor.decode e a).1).1⟩
      · obtain ⟨hmsgs₁, hok₁, herr₁⟩ := read_live hlive₁ (hwait.decode hout) b
        rw [hmsgs₁]
        refine ⟨?_, rfl⟩
        cases hout₁ : (m'.decode e b).2 with
        | ok m'' =>
          rw [hok₁ m'' hout₁, hok' m'' hout₁]
          exact Same.refl _
        | error ec =>
          obtain ⟨hsession, hdead⟩ := herr₁ ec hout₁
          exact ⟨hsession.trans (herr' ec hout₁).1.symm, fun h => absurd h hdead⟩
      · -- The session is closed, and what is left of the bytes does nothing to it.
        have hclosed : (c.session.receiveAll e (c.processor.decode e a).1).1.state = .closed := by
          by_contra hne
          exact hlive₁ ⟨(Session.reading_receiveAll ..).trans hlive.1, hne⟩
        have hnothing := Session.receiveAll_closed (e := e) hclosed (m'.decode e b).1
        rw [read_not_live hlive₁]
        refine ⟨⟨?_, fun h => absurd h hlive₁⟩, by rw [Processor.resume, hnothing]⟩
        cases hout₁ : (m'.decode e b).2 with
        | ok m'' => rw [hok' m'' hout₁, Processor.resume, hnothing]
        | error ec => rw [(herr' ec hout₁).1, Processor.resume, hnothing, Session.fail_closed hclosed]
  · simp only [read_not_live hlive]
    exact ⟨Same.refl c, rfl⟩

/-- A connection that has read nothing is ready to read. -/
theorem ready_start (e : Endpoint) : start.Ready e := fun _ => Processor.waiting_construct

/-- Reads do what one read of all their bytes does. -/
theorem reads_same {e : Endpoint} {c : Connection} (h : c.Ready e) (bufs : List (List UInt8)) :
    (c.reads e bufs).1.Same (c.read e bufs.flatten).1 ∧
      (c.reads e bufs).2 = (c.read e bufs.flatten).2 := by
  induction bufs generalizing c with
  | nil =>
    have hnil : c.read e [] = (c, []) := by
      rw [read, handleReadFrame_nil, ite_self]
    rw [List.flatten_nil, hnil]
    exact ⟨Same.refl c, rfl⟩
  | cons buf bufs ih =>
    obtain ⟨hrest, hmsgs⟩ := ih (h.read buf)
    obtain ⟨hsame, happ⟩ := read_append h buf bufs.flatten
    rw [List.flatten_cons, happ]
    simp only [reads]
    refine ⟨⟨hrest.1.trans hsame.1, fun hlive => ?_⟩, by rw [hmsgs]⟩
    have hlive' := hrest.2 hlive ▸ hlive
    exact (hrest.2 hlive).trans (hsame.2 hlive')

/-- However the bytes of a stream are cut into reads, the connection comes to the session that one read of all the
bytes brings it to, with the same messages handled; and where it reads on, it is the same connection. -/
theorem reads_eq_read_flatten (e : Endpoint) (bufs : List (List UInt8)) :
    (start.reads e bufs).2 = (start.read e bufs.flatten).2 ∧
    (start.reads e bufs).1.session = (start.read e bufs.flatten).1.session ∧
    ((start.reads e bufs).1.Live → (start.reads e bufs).1 = (start.read e bufs.flatten).1) := by
  obtain ⟨⟨hsession, hlive⟩, hmsgs⟩ := reads_same (ready_start e) bufs
  exact ⟨hmsgs, hsession, hlive⟩

/-! ## Answers -/

/-- The messages that come out of a stream are of the kinds that the processor lets through. -/
theorem received_of_decode {e : Endpoint} {m : Processor} (h : m.Waiting e) (buf : List UInt8) :
    ∀ msg ∈ (m.decode e buf).1, Processor.Received msg := by
  rcases h.decode_cases buf with ⟨ec, -, hdec⟩ | ⟨m₁, -, -, -, hdec⟩ |
    ⟨m₁, m', msg, rest, hwait, hreceived, hlt, -, -, -, hdec⟩
  · simp [hdec]
  · simp [hdec]
  · rw [hdec]
    exact List.forall_mem_cons.2 ⟨hreceived, received_of_decode hwait rest⟩
termination_by buf.length

/-- A new session handles and answers the messages of a stream as `handled` and `replies` say. -/
theorem receiveAll_start (e : Endpoint) (buf : List UInt8) :
    let msgs := (Processor.construct.decode e buf).1
    (Session.start.receiveAll e msgs).2 = handled msgs ∧
    (Session.start.receiveAll e msgs).1.state = (if ∃ msg ∈ msgs, msg.opcode = .close then .closing else .open) ∧
    Session.Answered e (replies e msgs) (Session.start.receiveAll e msgs).1 := by
  have hstart : Session.Answered e [] Session.start := ⟨rfl, fun _ => rfl⟩
  have hreceived := received_of_decode (e := e) Processor.waiting_construct buf
  simpa only [List.nil_append] using Session.receiveAll_open hstart rfl hreceived

/-- A read handles the data messages before the first close frame. -/
theorem read_handled (e : Endpoint) (buf : List UInt8) :
    (start.read e buf).2 = handled (Processor.construct.decode e buf).1 := by
  obtain ⟨hhandled, -, -⟩ := read_live (e := e) (m := .construct) (c := .start) ⟨rfl, by decide⟩
    Processor.waiting_construct buf
  exact hhandled.trans (receiveAll_start e buf).1

/-- After a read without an error, the messages are answered, and the session is closing if one was a close
frame. -/
theorem read_of_ok {e : Endpoint} {buf : List UInt8} {m : Processor}
    (hout : (Processor.construct.decode e buf).2 = .ok m) :
    let msgs := (Processor.construct.decode e buf).1
    (start.read e buf).1.session.sent = frames e (replies e msgs) ∧
    (start.read e buf).1.session.state =
      if ∃ msg ∈ msgs, msg.opcode = .close then .closing else .open := by
  obtain ⟨-, hok, -⟩ := read_live (e := e) (m := .construct) (c := .start) ⟨rfl, by decide⟩
    Processor.waiting_construct buf
  obtain ⟨-, hstate, hanswered⟩ := receiveAll_start e buf
  have hsession := congrArg session (hok m hout)
  exact ⟨(congrArg Session.sent hsession).trans hanswered.sent, (congrArg Session.state hsession).trans hstate⟩

/-- After a read with an error, this is answered too, unless a close frame came before it and the session is
closed. -/
theorem read_of_error {e : Endpoint} {buf : List UInt8} {ec : ErrorCode}
    (hout : (Processor.construct.decode e buf).2 = .error ec) :
    let msgs := (Processor.construct.decode e buf).1
    let hasClose := ∃ msg ∈ msgs, msg.opcode = .close
    (start.read e buf).1.session.sent =
      frames e (replies e msgs ++ if hasClose then [] else [errorReply ec]) ∧
    (start.read e buf).1.session.state = if hasClose then .closed else .closing := by
  obtain ⟨-, -, herr⟩ := read_live (e := e) (m := .construct) (c := .start) ⟨rfl, by decide⟩
    Processor.waiting_construct buf
  obtain ⟨-, hstate, hanswered⟩ := receiveAll_start e buf
  have hsession : (start.read e buf).1.session = _ := (herr ec hout).1
  dsimp only
  rw [hsession]
  split_ifs at hstate ⊢ with hclosed
  · obtain ⟨hclosed', hanswered'⟩ := Session.fail_closing hanswered hstate ec
    exact ⟨by rw [List.append_nil]; exact hanswered'.sent, hclosed'⟩
  · obtain ⟨hclosing, hanswered'⟩ := Session.fail_open hanswered hstate ec
    exact ⟨hanswered'.sent, hclosing⟩

/-- Reads handle the data messages before the first close frame of all their bytes. -/
theorem reads_handled (e : Endpoint) (bufs : List (List UInt8)) :
    (start.reads e bufs).2 = handled (Processor.construct.decode e bufs.flatten).1 :=
  (reads_eq_read_flatten e bufs).1.trans (read_handled e bufs.flatten)

/-- After reads without an error, the messages are answered, and the session is closing if one was a close
frame. -/
theorem reads_of_ok {e : Endpoint} {bufs : List (List UInt8)} {m : Processor}
    (hout : (Processor.construct.decode e bufs.flatten).2 = .ok m) :
    let msgs := (Processor.construct.decode e bufs.flatten).1
    (start.reads e bufs).1.session.sent = frames e (replies e msgs) ∧
    (start.reads e bufs).1.session.state =
      if ∃ msg ∈ msgs, msg.opcode = .close then .closing else .open := by
  rw [(reads_eq_read_flatten e bufs).2.1]
  exact read_of_ok hout

end Connection

end Typhoon.WebSocket
