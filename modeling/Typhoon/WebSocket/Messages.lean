import Typhoon.WebSocket.Frames

/-!
# Messages in fragments

A peer may send a data message in any number of frames, with control frames between them. What it sends so is
handed out as it was sent: the control frames as they come, and the message, put together, at its last frame
(`assemble_sendings`). The message handler gets the messages of a peer one by one, in their order
(`reads_sendings`). The text of a message in one frame has to be valid; of one in several frames it is only known
to be the beginning of a valid text, and any such beginning can be handed out (`handles_text_iff`).
-/

namespace Typhoon.WebSocket

open Utf8 (scan)

/-! ## What a peer sends -/

/-- A control frame between the frames of a message. -/
structure Signal where
  opcode : Opcode
  payload : List UInt8
  key : Option MaskingKey

namespace Signal

/-- The frame of a signal. -/
def frame (x : Signal) : Frame := ⟨true, false, false, false, x.opcode, x.key, x.payload⟩

/-- The message of a signal. -/
def message (x : Signal) : Message := { Message.construct x.opcode with payload := x.payload }

/-- A signal that the protocol allows. -/
structure Allowed (e : Endpoint) (x : Signal) : Prop where
  control : x.opcode.isControl = true
  known : x.opcode.reserved = false
  short : x.payload.length ≤ payloadSizeBasic
  masked : x.key.isSome = e.isServer

end Signal

/-- A part of a message, with the signals that are sent before it. -/
structure Fragment where
  signals : List Signal
  payload : List UInt8
  key : Option MaskingKey

namespace Fragment

/-- The frames of a fragment. -/
def frames (op : Opcode) (fin : Bool) (x : Fragment) : List Frame :=
  x.signals.map Signal.frame ++ [⟨fin, false, false, false, op, x.key, x.payload⟩]

/-- The frames of a fragment and those after it. -/
def framesFrom (op : Opcode) (x : Fragment) : List Fragment → List Frame
  | [] => x.frames op true
  | y :: ys => x.frames op false ++ framesFrom .continuation y ys

/-- A fragment that the protocol allows. -/
structure Allowed (e : Endpoint) (x : Fragment) : Prop where
  signals : ∀ s ∈ x.signals, s.Allowed e
  masked : x.key.isSome = e.isServer

end Fragment

/-- A data message as it is sent, in one fragment or more. -/
structure Sending where
  opcode : Opcode
  first : Fragment
  rest : List Fragment

namespace Sending

/-- The frames of a message. -/
def frames (x : Sending) : List Frame := x.first.framesFrom x.opcode x.rest

/-- The payload of a message. -/
def payload (x : Sending) : List UInt8 := (x.first :: x.rest).flatMap Fragment.payload

/-- The message that is sent. -/
def message (x : Sending) : Message := { Message.construct x.opcode with payload := x.payload }

/-- The signals that are sent with a message. -/
def signals (x : Sending) : List Signal := (x.first :: x.rest).flatMap Fragment.signals

/-- A message that the protocol allows, as far as the code looks at it. -/
structure Allowed (e : Endpoint) (x : Sending) : Prop where
  data : x.opcode = .text ∨ x.opcode = .binary
  fragments : ∀ y ∈ x.first :: x.rest, y.Allowed e
  small : x.payload.length ≤ e.maxMessageSize
  whole : x.opcode = .text → x.rest = [] → Utf8.Valid x.payload
  text : x.opcode = .text → ∃ t, Utf8.Valid (x.payload ++ t)

end Sending

/-! ## Putting fragments together -/

section

variable {e : Endpoint} {msg : Option Message}

/-- A signal changes nothing of the data message. -/
theorem Signal.step_frame {x : Signal} (h : x.Allowed e) : x.frame.step e msg = .ok (msg, some x.message) := by
  have hheader : x.frame.headerError e msg.isNone = none := by
    have hcont : x.opcode ≠ .continuation := fun h' => by
      have hcontrol := h.control
      rw [h'] at hcontrol
      cases hcontrol
    have hmask := h.masked
    unfold Frame.headerError Signal.frame
    simp only [h.control, h.known, not_lt.2 h.short, hcont, hmask]
    cases e.isServer <;> simp
  unfold Frame.step
  rw [hheader]
  exact if_pos h.control

/-- Signals are handed out as they come. -/
theorem assemble_signals {xs : List Signal} (h : ∀ x ∈ xs, x.Allowed e) (fs : List Frame) :
    Frame.assemble e msg (xs.map Signal.frame ++ fs) =
      (xs.map Signal.message ++ (Frame.assemble e msg fs).1, (Frame.assemble e msg fs).2) := by
  induction xs with
  | nil => rfl
  | cons x xs ih =>
    obtain ⟨hx, hxs⟩ := List.forall_mem_cons.1 h
    rw [List.map_cons, List.cons_append, Frame.assemble, Signal.step_frame hx]
    simp only [ih hxs]
    rfl

/-- Nothing is wrong with the header of a data frame that comes in its turn. -/
theorem headerError_data {fin : Bool} {op : Opcode} {key : Option MaskingKey} {p : List UInt8}
    (hop : (msg = none ∧ (op = .text ∨ op = .binary)) ∨ (msg.isSome ∧ op = .continuation))
    (hkey : key.isSome = e.isServer) :
    Frame.headerError e msg.isNone ⟨fin, false, false, false, op, key, p⟩ = none ∧ op.isControl = false := by
  have hcontrol : op.isControl = false ∧ op.reserved = false := by
    rcases hop with ⟨-, rfl | rfl⟩ | ⟨-, rfl⟩ <;> exact ⟨rfl, rfl⟩
  have hnew : msg = none → ¬ op = .continuation := by
    rintro rfl rfl
    rcases hop with ⟨-, h | h⟩ | ⟨h, -⟩ <;> cases h
  have hold : ¬ msg = none → op = .continuation := fun hne => by
    rcases hop with ⟨h, -⟩ | ⟨-, h⟩
    · exact absurd h hne
    · exact h
  refine ⟨?_, hcontrol.1⟩
  unfold Frame.headerError
  simp only [hkey, hcontrol.1, hcontrol.2]
  cases e.isServer <;> simp <;> exact ⟨hnew, hold⟩

/-- A data frame is added to the message that it belongs to. -/
theorem step_data {fin : Bool} {op : Opcode} {key : Option MaskingKey} {p : List UInt8}
    (hop : (msg = none ∧ (op = .text ∨ op = .binary)) ∨ (msg.isSome ∧ op = .continuation))
    (hkey : key.isSome = e.isServer)
    (hsmall : ((msg.getD (.construct op)).payload ++ p).length ≤ e.maxMessageSize)
    (hmax : e.maxMessageSize < 2 ^ 64) :
    let f : Frame := ⟨fin, false, false, false, op, key, p⟩
    f.step e msg = f.addData { msg.getD (.construct op) with
      payload := (msg.getD (.construct op)).payload ++ p } := by
  dsimp only
  have hsize : msg.elim 0 (·.payload.length) = (msg.getD (.construct op)).payload.length := by
    cases msg <;> rfl
  have hheader := (headerError_data hop hkey : Frame.headerError e msg.isNone
    ⟨fin, false, false, false, op, key, p⟩ = none ∧ op.isControl = false)
  rw [List.length_append] at hsmall
  unfold Frame.step
  rw [hheader.1]
  dsimp only
  rw [hheader.2, if_neg Bool.false_ne_true, hsize, Nat.mod_eq_of_lt (by omega), if_neg (not_lt.2 hsmall)]

/-- A text that begins a longer one is scanned where that is. -/
theorem scan_isSome_of_append {a b : List UInt8} (h : (scan [] (a ++ b)).isSome) : scan [] a ≠ none := by
  intro hnone
  rw [Utf8.scan_append, hnone] at h
  cases h

/-- The frames of a message are put together from the first to the last. -/
theorem assemble_framesFrom {op : Opcode} {x : Fragment} {ys : List Fragment}
    (hop : (msg = none ∧ (op = .text ∨ op = .binary)) ∨ (msg.isSome ∧ op = .continuation))
    (hx : ∀ y ∈ x :: ys, y.Allowed e) (hmax : e.maxMessageSize < 2 ^ 64)
    (hsmall : ((msg.getD (.construct op)).payload ++ (x :: ys).flatMap Fragment.payload).length ≤
      e.maxMessageSize)
    (htext : (msg.getD (.construct op)).opcode = .text →
      (scan [] ((msg.getD (.construct op)).payload ++ (x :: ys).flatMap Fragment.payload)).isSome)
    (hwhole : op = .text → ys = [] → scan [] x.payload = some []) (fs : List Frame) :
    Frame.assemble e msg (x.framesFrom op ys ++ fs) =
      (((x :: ys).flatMap Fragment.signals).map Signal.message ++
        { msg.getD (.construct op) with
          payload := (msg.getD (.construct op)).payload ++ (x :: ys).flatMap Fragment.payload } ::
        (Frame.assemble e none fs).1, (Frame.assemble e none fs).2) := by
  induction ys generalizing msg op x with
  | nil =>
    have hx' := hx x List.mem_cons_self
    rw [List.flatMap_singleton] at hsmall htext ⊢
    rw [List.flatMap_singleton, Fragment.framesFrom, Fragment.frames, List.append_assoc,
      assemble_signals hx'.signals, List.singleton_append, Frame.assemble, step_data hop hx'.masked hsmall hmax]
    have hscan : ¬ ((msg.getD (.construct op)).opcode = .text ∧
        scan [] ((msg.getD (.construct op)).payload ++ x.payload) = none) := fun h => by
      have hsome := htext h.1
      rw [h.2] at hsome
      cases hsome
    have hlast : ¬ (op = .text ∧ scan [] ((msg.getD (.construct op)).payload ++ x.payload) ≠ some []) := by
      rintro ⟨rfl, hne⟩
      rcases hop with ⟨rfl, -⟩ | ⟨-, h⟩
      · exact hne (hwhole rfl rfl)
      · cases h
    have hadd : Frame.addData ⟨true, false, false, false, op, x.key, x.payload⟩
        { msg.getD (.construct op) with payload := (msg.getD (.construct op)).payload ++ x.payload } =
        .ok (none, some { msg.getD (.construct op) with
          payload := (msg.getD (.construct op)).payload ++ x.payload }) := by
      unfold Frame.addData
      rw [if_neg hscan, if_neg (not_not.2 rfl), if_neg hlast]
    rw [hadd]
    rfl
  | cons y ys ih =>
    obtain ⟨hx', hys⟩ := List.forall_mem_cons.1 hx
    rw [List.flatMap_cons, ← List.append_assoc] at hsmall htext
    have hpart : ((msg.getD (.construct op)).payload ++ x.payload).length ≤ e.maxMessageSize := by
      rw [List.length_append] at hsmall
      omega
    have hadd : Frame.addData ⟨false, false, false, false, op, x.key, x.payload⟩
        { msg.getD (.construct op) with payload := (msg.getD (.construct op)).payload ++ x.payload } =
        .ok (some { msg.getD (.construct op) with
          payload := (msg.getD (.construct op)).payload ++ x.payload }, none) := by
      unfold Frame.addData
      rw [if_neg (fun h => scan_isSome_of_append (htext h.1) h.2), if_pos Bool.false_ne_true]
    have hmore : (some { msg.getD (.construct op) with
          payload := (msg.getD (.construct op)).payload ++ x.payload } = none ∧
          (Opcode.continuation = .text ∨ Opcode.continuation = .binary)) ∨
        ((some { msg.getD (.construct op) with
          payload := (msg.getD (.construct op)).payload ++ x.payload }).isSome ∧
          Opcode.continuation = .continuation) := .inr ⟨rfl, rfl⟩
    have hrest := ih hmore hys hsmall htext fun h => absurd h (by decide)
    rw [Fragment.framesFrom, Fragment.frames, List.append_assoc, List.append_assoc,
      assemble_signals hx'.signals, List.singleton_append, Frame.assemble, step_data hop hx'.masked hpart hmax,
      hadd]
    simp only [hrest, List.flatMap_cons, List.map_append, List.append_assoc, Option.toList_none,
      List.nil_append, Option.getD_some]

/-- The messages of a peer are put together as they were sent, in any fragments and with any signals between
them. -/
theorem assemble_sendings {xs : List Sending} (hmax : e.maxMessageSize < 2 ^ 64) (h : ∀ x ∈ xs, x.Allowed e) :
    Frame.assemble e none (xs.flatMap Sending.frames) =
      (xs.flatMap fun x => x.signals.map Signal.message ++ [x.message], .ok none) := by
  induction xs with
  | nil => rfl
  | cons x xs ih =>
    obtain ⟨hx, hxs⟩ := List.forall_mem_cons.1 h
    have htext : x.opcode = .text → (scan [] x.payload).isSome := fun hop =>
      Utf8.scan_isSome_iff.2 (hx.text hop)
    have hwhole : x.opcode = .text → x.rest = [] → scan [] x.first.payload = some [] := fun hop hrest => by
      have hvalid := Utf8.scan_eq_nil_iff.2 (hx.whole hop hrest)
      rwa [Sending.payload, hrest, List.flatMap_singleton] at hvalid
    rw [List.flatMap_cons, Sending.frames, assemble_framesFrom (.inl ⟨rfl, hx.data⟩) hx.fragments hmax hx.small htext
      hwhole, ih hxs]
    exact Prod.ext (List.append_cons (x.signals.map Signal.message) x.message _) rfl

/-! ## Messages that are handled -/

/-- The bytes of messages. -/
def sentBytes (xs : List Sending) : List UInt8 := (xs.flatMap Sending.frames).flatMap Frame.bytes

/-- A frame of a fragment is one of its signals or carries its payload. -/
theorem mem_frames {op : Opcode} {fin : Bool} {x : Fragment} {f : Frame} (hf : f ∈ x.frames op fin) :
    (∃ s ∈ x.signals, f = s.frame) ∨ f.payload = x.payload := by
  rcases List.mem_append.1 hf with h | h
  · obtain ⟨s, hs, rfl⟩ := List.mem_map.1 h
    exact .inl ⟨s, hs, rfl⟩
  · rw [List.mem_singleton.1 h]
    exact .inr rfl

/-- A frame of a message is a frame of one of its fragments. -/
theorem mem_framesFrom {op : Opcode} {x : Fragment} {ys : List Fragment} {f : Frame}
    (hf : f ∈ x.framesFrom op ys) :
    ∃ y ∈ x :: ys, (∃ s ∈ y.signals, f = s.frame) ∨ f.payload = y.payload := by
  induction ys generalizing op x with
  | nil => exact ⟨x, List.mem_cons_self, mem_frames hf⟩
  | cons y ys ih =>
    rcases List.mem_append.1 hf with h | h
    · exact ⟨x, List.mem_cons_self, mem_frames h⟩
    · obtain ⟨z, hz, hcase⟩ := ih h
      exact ⟨z, List.mem_cons_of_mem _ hz, hcase⟩

/-- The frames of a message that is allowed have lengths that are written in a header. -/
theorem Sending.Allowed.length_lt {x : Sending} (h : x.Allowed e) (hmax : e.maxMessageSize < 2 ^ 64) :
    ∀ f ∈ x.frames, f.payload.length < 2 ^ 64 := by
  intro f hf
  obtain ⟨y, hy, ⟨s, hs, rfl⟩ | hp⟩ := mem_framesFrom hf
  · exact ((h.fragments y hy).signals s hs).short.trans_lt (by decide)
  · have hpart : y.payload.length ≤ x.payload.length :=
      (List.sublist_flatten_of_mem (List.mem_map_of_mem hy)).length_le
    rw [hp]
    exact (hpart.trans h.small).trans_lt hmax

/-- What the processor makes of the bytes of messages. -/
theorem decode_sentBytes {xs : List Sending} (hmax : e.maxMessageSize < 2 ^ 64) (h : ∀ x ∈ xs, x.Allowed e) :
    (Processor.construct.decode e (sentBytes xs)).1 =
        (xs.flatMap fun x => x.signals.map Signal.message ++ [x.message]) ∧
      ∃ m, (Processor.construct.decode e (sentBytes xs)).2 = .ok m := by
  have hlen : ∀ f ∈ xs.flatMap Sending.frames, f.payload.length < 2 ^ 64 := by
    intro f hf
    obtain ⟨x, hx, hf⟩ := List.mem_flatMap.1 hf
    exact (h x hx).length_lt hmax f hf
  have hall := (Frame.between_construct e).assemble hlen []
  rw [assemble_sendings hmax h, List.append_nil] at hall
  obtain ⟨m, hbetween, hdec⟩ := hall
  rw [hbetween.waiting.decode_nil, List.append_nil] at hdec
  exact ⟨congrArg Prod.fst hdec, m, congrArg Prod.snd hdec⟩

/-- Signals that are no close frames are not handled. -/
theorem handled_signals {xs : List Signal} (h : ∀ x ∈ xs, x.Allowed e) (hclose : ∀ x ∈ xs, x.opcode ≠ .close)
    (msgs : List Message) : handled (xs.map Signal.message ++ msgs) = handled msgs := by
  induction xs with
  | nil => rfl
  | cons x xs ih =>
    obtain ⟨hx, hxs⟩ := List.forall_mem_cons.1 h
    obtain ⟨hop, hops⟩ := List.forall_mem_cons.1 hclose
    have hmsg : x.message.opcode ≠ .close ∧ x.message.opcode.isControl = true := ⟨hop, hx.control⟩
    rw [List.map_cons, List.cons_append, handled_cons_control hmsg.1 hmsg.2, ih hxs hops]

/-- The data messages of peers that send no close frame are all handled. -/
theorem handled_messages {xs : List Sending} (h : ∀ x ∈ xs, x.Allowed e)
    (hclose : ∀ x ∈ xs, ∀ s ∈ x.signals, s.opcode ≠ .close) :
    handled (xs.flatMap fun x => x.signals.map Signal.message ++ [x.message]) = xs.map Sending.message := by
  induction xs with
  | nil => rfl
  | cons x xs ih =>
    obtain ⟨hx, hxs⟩ := List.forall_mem_cons.1 h
    obtain ⟨hop, hops⟩ := List.forall_mem_cons.1 hclose
    have hsignals : ∀ s ∈ x.signals, s.Allowed e := by
      intro s hs
      obtain ⟨y, hy, hs⟩ := List.mem_flatMap.1 hs
      exact (hx.fragments y hy).signals s hs
    have hdata : ¬ x.message.opcode.isControl = true := by
      rw [show x.message.opcode = x.opcode from rfl]
      rcases hx.data with h | h <;> rw [h] <;> decide
    rw [List.flatMap_cons, List.append_assoc, handled_signals hsignals hop, List.singleton_append,
      handled_cons_data hdata, ih hxs hops, List.map_cons]

/-- Each ping among signals is answered with a pong. -/
theorem replies_signals {xs : List Signal} (hclose : ∀ x ∈ xs, x.opcode ≠ .close) (msgs : List Message) :
    replies e (xs.map Signal.message ++ msgs) =
      ((xs.filter (·.opcode = .ping)).map fun s => ⟨.pong, s.payload, false⟩) ++ replies e msgs := by
  induction xs with
  | nil => rfl
  | cons x xs ih =>
    obtain ⟨hop, hops⟩ := List.forall_mem_cons.1 hclose
    rw [List.map_cons, List.cons_append, replies, if_neg (show x.message.opcode ≠ .close from hop), ih hops]
    by_cases hping : x.opcode = .ping
    · rw [if_pos (show x.message.opcode = .ping from hping), List.filter_cons_of_pos (by simpa using hping)]
      rfl
    · rw [if_neg (show x.message.opcode ≠ .ping from hping), List.filter_cons_of_neg (by simpa using hping)]

/-- Nothing but the pings is answered. -/
theorem replies_messages {xs : List Sending} (h : ∀ x ∈ xs, x.Allowed e)
    (hclose : ∀ x ∈ xs, ∀ s ∈ x.signals, s.opcode ≠ .close) :
    replies e (xs.flatMap fun x => x.signals.map Signal.message ++ [x.message]) =
      ((xs.flatMap Sending.signals).filter (·.opcode = .ping)).map fun s => ⟨.pong, s.payload, false⟩ := by
  induction xs with
  | nil => rfl
  | cons x xs ih =>
    obtain ⟨hx, hxs⟩ := List.forall_mem_cons.1 h
    obtain ⟨hop, hops⟩ := List.forall_mem_cons.1 hclose
    have hdata : x.message.opcode ≠ .close ∧ x.message.opcode ≠ .ping := by
      rw [show x.message.opcode = x.opcode from rfl]
      rcases hx.data with h | h <;> rw [h] <;> decide
    rw [List.flatMap_cons, List.append_assoc, replies_signals hop, List.singleton_append, replies,
      if_neg hdata.1, if_neg hdata.2, ih hxs hops, List.flatMap_cons, List.filter_append, List.map_append]

/-- No message of peers that send no close frame is one. -/
theorem not_close_messages {xs : List Sending} (h : ∀ x ∈ xs, x.Allowed e)
    (hclose : ∀ x ∈ xs, ∀ s ∈ x.signals, s.opcode ≠ .close) :
    ¬ ∃ msg ∈ xs.flatMap fun x => x.signals.map Signal.message ++ [x.message], msg.opcode = .close := by
  rintro ⟨msg, hmsg, hop⟩
  obtain ⟨x, hx, hmsg⟩ := List.mem_flatMap.1 hmsg
  rcases List.mem_append.1 hmsg with hmsg | hmsg
  · obtain ⟨s, hs, rfl⟩ := List.mem_map.1 hmsg
    exact hclose x hx s hs hop
  · rw [List.mem_singleton.1 hmsg] at hop
    rcases (h x hx).data with hdata | hdata <;> exact absurd (hdata.symm.trans hop) (by decide)

/-- **A peer that keeps to the protocol is heard.** Its messages may be cut into fragments, with pings and pongs
between them, and their bytes into reads: the message handler gets each message as it was sent, in order, every ping
is answered by a pong with its payload, which a client masks with the next key, and the connection stays open. -/
theorem reads_sendings {xs : List Sending} {bufs : List (List UInt8)} (hmax : e.maxMessageSize < 2 ^ 64)
    (h : ∀ x ∈ xs, x.Allowed e) (hclose : ∀ x ∈ xs, ∀ s ∈ x.signals, s.opcode ≠ .close)
    (hbufs : bufs.flatten = sentBytes xs) :
    (Connection.start.reads e bufs).2 = xs.map Sending.message ∧
    (Connection.start.reads e bufs).1.session.sent =
      WebSocket.frames e (((xs.flatMap Sending.signals).filter (·.opcode = .ping)).map fun s =>
        ⟨.pong, s.payload, false⟩) ∧
    sendBuffer (Connection.start.reads e bufs).1.session.sent =
      (((xs.flatMap Sending.signals).filter (·.opcode = .ping)).mapIdx fun i s => Frame.bytes
        ⟨true, false, false, false, .pong, if e.isServer then none else some (e.rng i), s.payload⟩).flatten ∧
    (Connection.start.reads e bufs).1.session.state = .open := by
  obtain ⟨hmsgs, m, hok⟩ := decode_sentBytes hmax h
  rw [← hbufs] at hmsgs hok
  obtain ⟨hsent, hstate⟩ := Connection.reads_of_ok hok
  rw [hmsgs] at hsent hstate
  rw [replies_messages h hclose] at hsent
  refine ⟨?_, hsent, ?_, hstate.trans (if_neg (not_close_messages h hclose))⟩
  · rw [Connection.reads_handled, hmsgs, handled_messages h hclose]
  · rw [hsent, Frame.sendBuffer_frames, List.mapIdx_eq_zipIdx_map, List.zipIdx_map, List.map_map,
      List.mapIdx_eq_zipIdx_map]
    rfl

/-- A client with room for 100 bytes. -/
def smallClient : Endpoint := ⟨false, 100, fun _ _ => 0⟩

/-- A text in two fragments, with a ping between them. -/
def fragmented : Sending := ⟨.text, ⟨[], [72], none⟩, [⟨[⟨.ping, [1, 2], none⟩], [105], none⟩]⟩

/-- The text in two fragments is allowed at the client. -/
theorem allowed_fragmented : fragmented.Allowed smallClient where
  data := .inl rfl
  fragments := fun y hy => by
    rcases List.mem_cons.1 hy with rfl | hy
    · exact ⟨fun s hs => (nomatch hs), rfl⟩
    · rw [List.mem_singleton.1 hy]
      refine ⟨fun s hs => ?_, rfl⟩
      rw [List.mem_singleton.1 hs]
      exact ⟨rfl, rfl, by decide, rfl⟩
  small := by decide
  whole := fun _ h => (nomatch h)
  text := fun _ => ⟨[], Utf8.scan_eq_nil_iff.1 (by decide)⟩

/-- The text in two fragments, cut into two reads: it is handled, and the ping is answered. -/
theorem reads_sendings_two :
    [(sentBytes [fragmented]).take 5, (sentBytes [fragmented]).drop 5].flatten = sentBytes [fragmented] ∧
    (Connection.start.reads smallClient [(sentBytes [fragmented]).take 5, (sentBytes [fragmented]).drop 5]).2 =
      [{ Message.construct .text with payload := [72, 105] }] ∧
    sendBuffer (Connection.start.reads smallClient
      [(sentBytes [fragmented]).take 5, (sentBytes [fragmented]).drop 5]).1.session.sent =
      Frame.bytes ⟨true, false, false, false, .pong, some fun _ => 0, [1, 2]⟩ := by
  have hbufs : [(sentBytes [fragmented]).take 5, (sentBytes [fragmented]).drop 5].flatten =
      sentBytes [fragmented] := by
    simp only [List.flatten_cons, List.flatten_nil, List.append_nil, List.take_append_drop]
  have hallowed : ∀ x ∈ [fragmented], x.Allowed smallClient := fun x hx =>
    (List.mem_singleton.1 hx).symm ▸ allowed_fragmented
  obtain ⟨hmsgs, -, hbytes, -⟩ := reads_sendings (by decide) hallowed (by decide) hbufs
  exact ⟨hbufs, hmsgs, hbytes⟩

/-- The key of a peer that masks with zeros, where it has to mask. -/
def zeroKey (e : Endpoint) : Option MaskingKey := if e.isServer then some fun _ => 0 else none

/-- A peer masks where it has to. -/
theorem isSome_zeroKey (e : Endpoint) : (zeroKey e).isSome = e.isServer := by
  unfold zeroKey
  cases e.isServer <;> rfl

/-- A text in two frames, the second of which is empty. -/
def beginning (e : Endpoint) (s : List UInt8) : Sending where
  opcode := .text
  first := ⟨[], s, zeroKey e⟩
  rest := [⟨[], [], zeroKey e⟩]

/-- The two frames carry the text. -/
theorem payload_beginning (e : Endpoint) (s : List UInt8) : (beginning e s).payload = s := by
  simp [beginning, Sending.payload]

/-- A text in two frames is allowed where it begins a valid one. -/
theorem allowed_beginning {s : List UInt8} (hs : s.length ≤ e.maxMessageSize)
    (ht : ∃ t, Utf8.Valid (s ++ t)) : (beginning e s).Allowed e where
  data := .inl rfl
  fragments := fun y hy => by
    rcases List.mem_cons.1 hy with rfl | hy
    · exact ⟨fun s hs => (nomatch hs), isSome_zeroKey e⟩
    · rw [List.mem_singleton.1 hy]
      exact ⟨fun s hs => (nomatch hs), isSome_zeroKey e⟩
  small := by rwa [payload_beginning]
  whole := fun _ h => (nomatch h)
  text := fun _ => by rwa [payload_beginning]

/-- **The texts that a message handler can get** are the beginnings of valid texts, not only valid texts: the end of
a text is looked at in the last frame of a message by the opcode of that frame, which is no longer that of a text
where there are several. No text of any length is handled that is not such a beginning, and each one that is within
the limit on messages can be. -/
theorem handles_text_iff {s : List UInt8} :
    ((∃ bufs, ∃ msg ∈ (Connection.start.reads e bufs).2, msg.opcode = .text ∧ msg.payload = s) →
      ∃ t, Utf8.Valid (s ++ t)) ∧
    (e.maxMessageSize < 2 ^ 64 → s.length ≤ e.maxMessageSize →
      ((∃ bufs, ∃ msg ∈ (Connection.start.reads e bufs).2, msg.opcode = .text ∧ msg.payload = s) ↔
        ∃ t, Utf8.Valid (s ++ t))) := by
  have hbegins : (∃ bufs, ∃ msg ∈ (Connection.start.reads e bufs).2, msg.opcode = .text ∧ msg.payload = s) →
      ∃ t, Utf8.Valid (s ++ t) := by
    rintro ⟨bufs, msg, hmsg, hop, rfl⟩
    rw [Connection.reads_handled] at hmsg
    obtain ⟨hmem, hcontrol⟩ := mem_handled hmsg
    rcases Connection.received_of_decode Processor.waiting_construct _ msg hmem with ⟨h, -⟩ | h | ⟨-, h⟩
    · exact absurd h hcontrol
    · rw [hop] at h
      cases h
    · exact Utf8.scan_isSome_iff.1 h
  refine ⟨hbegins, fun hmax hs => ⟨hbegins, fun ht => ?_⟩⟩
  have hall : ∀ x ∈ [beginning e s], x.Allowed e := fun x hx =>
    (List.mem_singleton.1 hx).symm ▸ allowed_beginning hs ht
  have hnone : ∀ x ∈ [beginning e s], ∀ s ∈ x.signals, s.opcode ≠ .close := fun x hx s hs => by
    rw [List.mem_singleton.1 hx] at hs
    cases hs
  refine ⟨[sentBytes [beginning e s]], (beginning e s).message, ?_, rfl, payload_beginning e s⟩
  rw [Connection.reads_handled, List.flatten_singleton, (decode_sentBytes hmax hall).1,
    handled_messages hall hnone]
  exact List.mem_singleton_self _

/-- Two of the three bytes of a character are handled as a text. -/
theorem handles_text_two :
    ¬ Utf8.Valid [0xE2, 0x82] ∧
    ∃ bufs, ∃ msg ∈ (Connection.start.reads smallClient bufs).2,
      msg.opcode = .text ∧ msg.payload = [0xE2, 0x82] :=
  ⟨fun h => absurd (Utf8.scan_eq_nil_iff.2 h) (by decide),
    (handles_text_iff.2 (by decide) (by decide)).2 ⟨[0xAC], Utf8.scan_eq_nil_iff.1 (by decide)⟩⟩

end

end Typhoon.WebSocket
