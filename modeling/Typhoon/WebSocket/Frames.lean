import Typhoon.WebSocket.Reads

/-!
# Frames

The frames on a connection, and what becomes of them. A frame is written as a header and a payload (`Frame.bytes`),
and a list of frames is put together to messages by `assemble`, which knows nothing of bytes, of buffers or of the
state of a processor. The processor refines it: on the bytes of any frames it comes to the messages, the errors and
the unfinished message that `assemble` gives for the frames (`decode_frames`).
-/

namespace Typhoon.WebSocket

open Utf8 (scan)

namespace Processor

variable {e : Endpoint} {m m' : Processor}

/-! ## Parts of a frame -/

/-- Once a header is complete and valid, the loop goes on with the payload. -/
theorem consume_header (e : Endpoint) (m : Processor) {b : BasicHeader} {x : ExtendedHeader}
    (hlen : x.bytes.length = b.getHeaderLen - 2) (hvalid : validateIncomingExtendedHeader b x = none)
    (rest : List UInt8) :
    m.resetHeaders.consume e (b.b0 :: b.b1 :: (x.bytes ++ rest)) =
      match validateIncomingBasicHeader b e.isServer m.dataMsg.isNone with
      | some ec => .error ec
      | none =>
        (startPayload e { m with
          state := .headerExtended
          bytesNeeded := 0
          basicHeader := b
          extendedHeader := x }).bind fun m => m.consume e rest := by
  have hc : m.resetHeaders.Continues (b.b0 :: b.b1 :: (x.bytes ++ rest)) :=
    ⟨by simp [resetHeaders], by simp [resetHeaders], .inl (by simp)⟩
  have hpass : m.resetHeaders.pass e (b.b0 :: b.b1 :: (x.bytes ++ rest)) =
      match validateIncomingBasicHeader b e.isServer m.dataMsg.isNone with
      | some ec => .error ec
      | none => .ok ({ m.resetHeaders with
          state := .headerExtended
          bytesNeeded := b.getHeaderLen - 2
          basicHeader := b }, x.bytes ++ rest) := rfl
  cases hbasic : validateIncomingBasicHeader b e.isServer m.dataMsg.isNone with
  | some ec =>
    rw [hbasic] at hpass
    exact consume_of_pass_error hc hpass
  | none =>
    rw [hbasic] at hpass
    rw [consume_of_pass hc hpass]
    have hc' : Continues { m.resetHeaders with
        state := .headerExtended
        bytesNeeded := b.getHeaderLen - 2
        basicHeader := b } (x.bytes ++ rest) := by
      refine ⟨by simp, by simp, ?_⟩
      rw [← hlen]
      cases hbytes : x.bytes with
      | nil => exact .inr rfl
      | cons byte bytes => exact .inl (by simp)
    have hcopy : copyExtendedHeaderBytes { m.resetHeaders with
        state := .headerExtended
        bytesNeeded := b.getHeaderLen - 2
        basicHeader := b } (x.bytes ++ rest) = ({ m with
          state := .headerExtended
          bytesNeeded := 0
          basicHeader := b
          extendedHeader := x }, rest) := by
      have hmin : min x.bytes.length (x.bytes ++ rest).length = x.bytes.length := by simp
      simp only [copyExtendedHeaderBytes, ← hlen, hmin, List.take_left', List.drop_left', Nat.sub_self,
        resetHeaders, List.nil_append]
    have hpass' : pass e { m.resetHeaders with
        state := .headerExtended
        bytesNeeded := b.getHeaderLen - 2
        basicHeader := b } (x.bytes ++ rest) =
        (startPayload e { m with
          state := .headerExtended
          bytesNeeded := 0
          basicHeader := b
          extendedHeader := x }).map fun m => (m, rest) := by
      unfold pass
      dsimp only
      rw [hcopy, if_neg (lt_irrefl 0), hvalid]
      dsimp only
      split
      · rename_i hstart
        rw [hstart]
        rfl
      · rename_i hstart
        rw [hstart]
        rfl
    dsimp only
    cases hstart : startPayload e { m with
        state := .headerExtended
        bytesNeeded := 0
        basicHeader := b
        extendedHeader := x } with
    | error ec =>
      rw [hstart] at hpass'
      rw [consume_of_pass_error hc' hpass']
      rfl
    | ok m' =>
      rw [hstart] at hpass'
      rw [consume_of_pass hc' hpass']
      rfl

/-- A payload that is complete, and the end of its frame. -/
theorem consume_payload (hstate : m.state = .application) {p : List UInt8} (hneed : m.bytesNeeded = p.length)
    (rest : List UInt8) :
    m.consume e (p ++ rest) =
      (m.processPayloadBytes p).bind fun m => m.finishFrame.bind fun m => m.consume e rest := by
  have hc : m.Continues (p ++ rest) := by
    refine ⟨by rw [hstate]; decide, by rw [hstate]; decide, ?_⟩
    rw [hneed]
    cases p with
    | nil => exact .inr rfl
    | cons byte p => exact .inl (by simp)
  have hmin : min m.bytesNeeded (p ++ rest).length = p.length := by
    rw [hneed, List.length_append]
    omega
  have hpass : m.pass e (p ++ rest) =
      (m.processPayloadBytes p).bind fun m => m.finishFrame.map fun m => (m, rest) := by
    unfold pass
    rw [hstate]
    dsimp only
    rw [processPayloadBytes_take, hmin, List.take_left' rfl, List.drop_left' rfl]
    cases hpay : m.processPayloadBytes p with
    | error ec => rfl
    | ok m₁ =>
      have hdone : ¬ 0 < m₁.bytesNeeded := by
        rw [bytesNeeded_of_processPayloadBytes hpay, hneed, Nat.sub_self]
        exact lt_irrefl 0
      dsimp only [Except.bind]
      rw [if_neg hdone]
      cases m₁.finishFrame <;> rfl
  cases hpay : m.processPayloadBytes p with
  | error ec =>
    rw [hpay] at hpass
    rw [consume_of_pass_error hc hpass]
    rfl
  | ok m₁ =>
    rw [hpay] at hpass
    cases hfinish : m₁.finishFrame with
    | error ec =>
      rw [Except.bind, hfinish] at hpass
      rw [consume_of_pass_error hc hpass, Except.bind, hfinish]
      rfl
    | ok m' =>
      rw [Except.bind, hfinish] at hpass
      rw [consume_of_pass hc hpass, Except.bind, hfinish]
      rfl

end Processor

/-! ## Frames -/

/-- A frame: its flags and opcode, its masking key if there is one, and what it carries. -/
structure Frame where
  fin : Bool
  rsv1 : Bool
  rsv2 : Bool
  rsv3 : Bool
  opcode : Opcode
  key : Option MaskingKey
  payload : List UInt8

namespace Frame

/-- The basic header of a frame. -/
def basicHeader (f : Frame) : BasicHeader :=
  .construct f.opcode f.payload.length f.fin f.key.isSome f.rsv1 f.rsv2 f.rsv3

/-- The extended header of a frame. -/
def extendedHeader (f : Frame) : ExtendedHeader := .construct f.payload.length f.key

/-- The payload as it is sent. -/
def sent (f : Frame) : List UInt8 := f.key.elim f.payload (byteMask f.payload)

/-- The bytes of a frame. -/
def bytes (f : Frame) : List UInt8 := prepareHeader f.basicHeader f.extendedHeader ++ f.sent

/-- The header and the payload that an endpoint prepares are the bytes of a frame. -/
theorem bytes_written (e : Endpoint) (op : Opcode) (payload : List UInt8) (fin : Bool) (key : MaskingKey) :
    writeHeader e op payload.length fin key ++ writePayload e payload key =
      bytes ⟨fin, false, false, false, op, if e.isServer then none else some key, payload⟩ := by
  -- A client masks the payload and has the bit for it, and a server does neither.
  unfold writeHeader writePayload bytes basicHeader extendedHeader sent
  cases e.isServer <;> rfl

/-- The bytes of replies are those of their frames, each with the next key of a client. -/
theorem sendBuffer_frames (e : Endpoint) (rs : List Reply) :
    sendBuffer (frames e rs) = (rs.mapIdx fun i r =>
      bytes ⟨true, false, false, false, r.opcode, if e.isServer then none else some (e.rng i), r.payload⟩).flatten := by
  have hbytes : ∀ i (r : Reply), (r.frame e (e.rng i)).header ++ (r.frame e (e.rng i)).payload =
      bytes ⟨true, false, false, false, r.opcode, if e.isServer then none else some (e.rng i), r.payload⟩ :=
    fun i r => bytes_written e r.opcode r.payload true (e.rng i)
  rw [sendBuffer, List.flatMap_def, frames, List.mapIdx_eq_zipIdx_map, List.mapIdx_eq_zipIdx_map, List.map_map]
  exact congrArg List.flatten (List.map_congr_left fun ri _ => hbytes ri.2 ri.1)

/-- What the basic header of a frame tells to be wrong, where `new` says that no data message is unfinished. -/
def headerError (e : Endpoint) (new : Bool) (f : Frame) : Option ErrorCode :=
  if f.opcode.isControl ∧ payloadSizeBasic < f.payload.length then some .controlTooBig
  else if f.rsv1 ∨ f.rsv2 ∨ f.rsv3 then some .invalidRsvBit
  else if f.opcode.reserved then some .invalidOpcode
  else if f.opcode.isControl ∧ ¬ f.fin then some .fragmentedControl
  else if (new ∧ f.opcode = .continuation) ∨ (¬ new ∧ ¬ f.opcode.isControl ∧ f.opcode ≠ .continuation) then
    some .invalidContinuation
  else if e.isServer ∧ ¬ f.key.isSome then some .maskingRequired
  else if ¬ e.isServer ∧ f.key.isSome then some .maskingForbidden
  else none

/-- What the payload of a data frame makes of the message that it goes into. -/
def addData (f : Frame) (msg : Message) : Except ErrorCode (Option Message × Option Message) :=
  if msg.opcode = .text ∧ scan [] msg.payload = none then .error .invalidUtf8
  else if ¬ f.fin then .ok (some msg, none)
  -- Only the text of a message in one frame is looked at as a whole.
  else if f.opcode = .text ∧ scan [] msg.payload ≠ some [] then .error .invalidUtf8
  else .ok (none, some msg)

/-- What a frame makes of the data message so far: that message after it, and the message that is complete. -/
def step (e : Endpoint) (msg : Option Message) (f : Frame) :
    Except ErrorCode (Option Message × Option Message) :=
  match f.headerError e msg.isNone with
  | some ec => .error ec
  | none =>
    if f.opcode.isControl then .ok (msg, some { Message.construct f.opcode with payload := f.payload })
    else if e.maxMessageSize < ((msg.elim 0 (·.payload.length)) + f.payload.length) % 2 ^ 64 then
      .error .messageTooBig
    else
      let msg := msg.getD (.construct f.opcode)
      f.addData { msg with payload := msg.payload ++ f.payload }

/-- The messages of frames, and the data message that is left over, if there is no error. -/
def assemble (e : Endpoint) (msg : Option Message) :
    List Frame → List Message × Except ErrorCode (Option Message)
  | [] => ([], .ok msg)
  | f :: fs =>
    match f.step e msg with
    | .error ec => ([], .error ec)
    | .ok (msg, done) =>
      let (msgs, out) := assemble e msg fs
      (done.toList ++ msgs, out)

/-! ## Reading a frame -/

/-- The length in the basic header tells a long payload from a short one. -/
theorem lt_basicValue_iff (size : ℕ) : payloadSizeBasic < (basicValue size).toNat ↔ payloadSizeBasic < size := by
  rcases size_cases size with ⟨hle, hb, -⟩ | ⟨hlt, -, hb, -⟩ | ⟨hlt, hb, -⟩
  · have hsmall : (UInt8.ofNat size).toNat = size :=
      UInt8.toNat_ofNat'.trans (Nat.mod_eq_of_lt (by omega))
    rw [hb, hsmall]
  · rw [hb]
    exact ⟨fun _ => hlt, fun _ => by decide⟩
  · rw [hb]
    exact ⟨fun _ => lt_trans (by decide) hlt, fun _ => by decide⟩

/-- The processor finds what is wrong with a header. -/
theorem validate_basicHeader (e : Endpoint) (new : Bool) (f : Frame) :
    Processor.validateIncomingBasicHeader f.basicHeader e.isServer new = f.headerError e new := by
  have hinvalid : f.opcode.invalid = false := by cases f.opcode <;> decide
  simp only [Processor.validateIncomingBasicHeader, headerError, basicHeader,
    BasicHeader.getOpcode_construct, BasicHeader.getFin_construct, BasicHeader.getRsv1_construct,
    BasicHeader.getRsv2_construct, BasicHeader.getRsv3_construct, BasicHeader.getMasked_construct,
    BasicHeader.getBasicSize_construct, lt_basicValue_iff, hinvalid, ite_or, Bool.false_eq_true, if_false]

/-- The lengths of frames are minimal. -/
theorem validate_extendedHeader {f : Frame} (hlen : f.payload.length < 2 ^ 64) :
    Processor.validateIncomingExtendedHeader f.basicHeader f.extendedHeader = none := by
  unfold Processor.validateIncomingExtendedHeader basicHeader extendedHeader
  simp only [getPayloadSize_construct _ _ _ _ _ _ hlen, BasicHeader.getBasicSize_construct]
  rcases size_cases f.payload.length with ⟨hle, hb, -⟩ | ⟨hlt, -, hb, -⟩ | ⟨hlt, hb, -⟩
  · have hsmall : (UInt8.ofNat f.payload.length).toNat = f.payload.length :=
      UInt8.toNat_ofNat'.trans (Nat.mod_eq_of_lt (by omega))
    have hne : ∀ code : UInt8, 125 < code.toNat → UInt8.ofNat f.payload.length ≠ code := by
      rintro code hcode rfl
      omega
    rw [hb, if_neg (fun h => hne _ (by decide) h.1), if_neg (fun h => hne _ (by decide) h.1)]
  · rw [hb, if_neg (fun h => absurd h.2 (not_le.2 hlt)), if_neg (fun h => absurd h.1 (by decide))]
  · rw [hb, if_neg (fun h => absurd h.1 (by decide)), if_neg (fun h => absurd h.2 (not_le.2 hlt))]

/-- A payload is unmasked as it is read. -/
theorem process_sent (f : Frame) {md : MsgMetadata}
    (hkey : md.preparedKey = prepareMaskingKey (f.key.getD fun _ => 0)) :
    ∃ k, md.process f.key.isSome f.sent = ({ md with preparedKey := k }).process false f.payload := by
  unfold sent
  cases hf : f.key with
  | none => exact ⟨md.preparedKey, rfl⟩
  | some key =>
    rw [hf] at hkey
    refine ⟨(byteMaskCirc (byteMask f.payload key) md.preparedKey).2, ?_⟩
    rw [Option.isSome_some, MsgMetadata.process_true, Option.elim_some, hkey]
    exact congrArg (MsgMetadata.process false · _) (byteMask_byteMask f.payload key)

/-- A payload is put into a message, unless it is a text that is not valid. -/
theorem process_payload (f : Frame) {md : MsgMetadata} (h : md.Sound)
    (hkey : md.preparedKey = prepareMaskingKey (f.key.getD fun _ => 0)) :
    (md.message.opcode = .text ∧ scan [] (md.message.payload ++ f.payload) = none ∧
      md.process f.key.isSome f.sent = .error .invalidUtf8) ∨
    (¬ (md.message.opcode = .text ∧ scan [] (md.message.payload ++ f.payload) = none) ∧
      ∃ md', md.process f.key.isSome f.sent = .ok md' ∧
        md'.message = { md.message with payload := md.message.payload ++ f.payload }) := by
  obtain ⟨k, hprocess⟩ := process_sent f hkey
  rw [hprocess]
  unfold MsgMetadata.process
  simp only [Bool.false_eq_true, if_false]
  by_cases htext : md.message.opcode = .text
  · obtain ⟨rs, hscan, hexp⟩ := h htext
    have hdecode := Validator.decode_eq_scan hexp f.payload
    rw [if_pos htext, Utf8.scan_append, hscan, Option.bind_some]
    cases hout : scan rs f.payload with
    | none =>
      rw [hout] at hdecode
      rw [if_neg (by rw [show (md.validator.decode f.payload).2 = false from hdecode]; decide)]
      exact .inl ⟨htext, rfl, rfl⟩
    | some rs' =>
      rw [hout] at hdecode
      rw [if_pos hdecode.1]
      exact .inr ⟨(nomatch ·.2), _, rfl, rfl⟩
  · rw [if_neg htext]
    exact .inr ⟨fun h => htext h.1, _, rfl, rfl⟩

/-- A processor between two frames, with the data message that is unfinished. -/
structure Between (e : Endpoint) (msg : Option Message) (m : Processor) : Prop where
  waiting : m.Waiting e
  reset : m.resetHeaders = m
  data : m.dataMsg.map (·.message) = msg

/-- A processor after the header of a frame. -/
def afterHeader (f : Frame) (m : Processor) : Processor :=
  { m with
    state := .headerExtended
    bytesNeeded := 0
    basicHeader := f.basicHeader
    extendedHeader := f.extendedHeader }

/-- A frame is a header, a payload and the end of the frame. -/
theorem consume_bytes (e : Endpoint) (f : Frame) (hlen : f.payload.length < 2 ^ 64) (m : Processor)
    (rest : List UInt8) :
    m.resetHeaders.consume e (f.bytes ++ rest) =
      match f.headerError e m.dataMsg.isNone with
      | some ec => .error ec
      | none =>
        ((f.afterHeader m).startPayload e).bind fun m => (m.processPayloadBytes f.sent).bind fun m =>
          m.finishFrame.bind fun m => m.consume e rest := by
  have hbytes : f.bytes ++ rest =
      f.basicHeader.b0 :: f.basicHeader.b1 :: (f.extendedHeader.bytes ++ (f.sent ++ rest)) := by
    rw [bytes, show prepareHeader f.basicHeader f.extendedHeader = _ from prepareHeader_construct ..,
      List.append_assoc, List.cons_append, List.cons_append]
    rfl
  have hcount : f.extendedHeader.bytes.length = f.basicHeader.getHeaderLen - 2 := length_bytes_construct ..
  rw [hbytes, Processor.consume_header e m hcount (validate_extendedHeader hlen), validate_basicHeader]
  cases f.headerError e m.dataMsg.isNone with
  | some ec => rfl
  | none =>
    show (Processor.startPayload e (f.afterHeader m)).bind _ = (Processor.startPayload e (f.afterHeader m)).bind _
    cases hstart : (f.afterHeader m).startPayload e with
    | error ec => rfl
    | ok m₁ =>
      have hneed : m₁.bytesNeeded = f.sent.length := by
        have hsize : getPayloadSize f.basicHeader f.extendedHeader = f.sent.length := by
          rw [show getPayloadSize f.basicHeader f.extendedHeader = _ from getPayloadSize_construct _ _ _ _ _ _ hlen _,
            sent]
          cases f.key <;> simp
        rw [← hsize]
        rcases Processor.startPayload_ok hstart with ⟨-, rfl⟩ | ⟨-, -, -, rfl⟩ | ⟨-, -, -, -, rfl⟩ <;> rfl
      exact Processor.consume_payload (Processor.state_of_startPayload hstart) hneed rest

/-- A processor that has read the header of a frame, and the message that its payload goes into. -/
structure Opened (e : Endpoint) (f : Frame) (md : MsgMetadata) (m : Processor) : Prop where
  sound : m.Sound e
  state : m.state = .application
  header : m.basicHeader = f.basicHeader
  current : m.current = some md
  key : md.preparedKey = prepareMaskingKey (f.key.getD fun _ => 0)
  needed : m.bytesNeeded = f.sent.length

/-- A processor that has read the payload of a frame. -/
structure Closed (e : Endpoint) (f : Frame) (md : MsgMetadata) (m : Processor) : Prop where
  sound : m.Sound e
  state : m.state = .application
  header : m.basicHeader = f.basicHeader
  current : m.current = some md

/-- The payload of a frame is read into its message, unless it makes a text invalid. -/
theorem Opened.processPayloadBytes {e : Endpoint} {f : Frame} {md : MsgMetadata} {m : Processor}
    (h : Opened e f md m) (hmd : md.Sound) :
    (md.message.opcode = .text ∧ scan [] (md.message.payload ++ f.payload) = none ∧
      m.processPayloadBytes f.sent = .error .invalidUtf8) ∨
    (¬ (md.message.opcode = .text ∧ scan [] (md.message.payload ++ f.payload) = none) ∧
      ∃ md' m', m.processPayloadBytes f.sent = .ok m' ∧
        md'.message = { md.message with payload := md.message.payload ++ f.payload } ∧ md'.Sound ∧
        Closed e f md' m' ∧ m'.currentMsg = m.currentMsg ∧
        m'.dataMsg = if m.currentMsg = .data then some md' else m.dataMsg) := by
  have hmasked : m.basicHeader.getMasked = f.key.isSome := by
    rw [h.header, basicHeader, BasicHeader.getMasked_construct]
  rcases f.process_payload hmd h.key with ⟨htext, hscan, hprocess⟩ | ⟨hvalid, md', hprocess, hmessage⟩
  · refine .inl ⟨htext, hscan, ?_⟩
    unfold Processor.processPayloadBytes
    simp only [h.current, hmasked, hprocess]
  · have hread : m.processPayloadBytes f.sent = .ok { m.setCurrent (some md') with bytesNeeded := 0 } := by
      unfold Processor.processPayloadBytes
      simp only [h.current, hmasked, hprocess, h.needed, Nat.sub_self]
    refine .inr ⟨hvalid, md', _, hread, hmessage, hmd.process hprocess, ⟨?_, ?_, ?_, ?_⟩, ?_, ?_⟩
    · exact h.sound.processPayloadBytes h.state h.needed.ge hread
    · exact (Processor.state_setCurrent ..).trans h.state
    · exact (Processor.basicHeader_setCurrent ..).trans h.header
    · exact Processor.current_setCurrent ..
    · unfold Processor.setCurrent
      cases m.currentMsg <;> rfl
    · unfold Processor.setCurrent
      cases m.currentMsg <;> rfl

/-- The last frame of a message makes it ready. -/
theorem Closed.finishFrame_fin {e : Endpoint} {f : Frame} {m : Processor} {md : MsgMetadata}
    (h : Closed e f md m) (hmd : md.Sound) (hfin : f.fin = true)
    (htext : f.opcode = .text → md.message.opcode = .text) :
    m.finishFrame = if f.opcode = .text ∧ scan [] md.message.payload ≠ some [] then .error .invalidUtf8
      else .ok { m with state := .ready } := by
  have hop : m.basicHeader.getOpcode = f.opcode := by
    rw [h.header, basicHeader, BasicHeader.getOpcode_construct]
  have hlast : m.basicHeader.getFin = true := by
    rw [h.header, basicHeader, BasicHeader.getFin_construct, hfin]
  have hcomplete : f.opcode = .text → (md.validator.complete = true ↔ scan [] md.message.payload = some []) := by
    intro h
    obtain ⟨rs, hscan, hexp⟩ := hmd (htext h)
    rw [Validator.complete_iff hexp, hscan, Option.some.injEq]
  unfold Processor.finishFrame Processor.finalizeMessage
  rw [if_pos hlast, hop, h.current]
  by_cases h : f.opcode = .text
  · have hiff := hcomplete h
    cases hdone : md.validator.complete with
    | true =>
      rw [if_neg (by simp [hdone]), if_neg (fun h => h.2 (hiff.1 hdone))]
    | false =>
      have hne : scan [] md.message.payload ≠ some [] := fun h => by
        rw [hiff.2 h] at hdone
        cases hdone
      rw [if_pos ⟨h, by simp [hdone]⟩, if_pos ⟨h, hne⟩]
  · rw [if_neg (fun h' => h h'.1), if_neg (fun h' => h h'.1)]

/-- A frame that is not the last one of its message is followed by the next header. -/
theorem Closed.finishFrame_not_fin {e : Endpoint} {f : Frame} {m : Processor} {md : MsgMetadata}
    (h : Closed e f md m) (hfin : f.fin = false) : m.finishFrame = .ok m.resetHeaders := by
  have hlast : m.basicHeader.getFin = false := by
    rw [h.header, basicHeader, BasicHeader.getFin_construct, hfin]
  rw [Processor.finishFrame, hlast]
  rfl

/-- A control frame without an error is final, and a data frame continues a message exactly where one is
unfinished. -/
theorem headerError_eq_none {e : Endpoint} {new : Bool} {f : Frame} (h : f.headerError e new = none) :
    (f.opcode.isControl → f.fin = true) ∧
    (¬ f.opcode.isControl → (f.opcode = .continuation ↔ ¬ new)) := by
  rw [← validate_basicHeader] at h
  obtain ⟨hcontrol, -, -, -, -, -, hdata, -⟩ := Processor.validateIncomingBasicHeader_eq_none.1 h
  rw [basicHeader, BasicHeader.getOpcode_construct] at hcontrol hdata
  refine ⟨fun hop => ?_, hdata⟩
  have hfin := (hcontrol hop).2
  rwa [BasicHeader.getFin_construct] at hfin

/-- A header gives back the opcode, the length of the payload and the key. -/
theorem header_reads {f : Frame} (hlen : f.payload.length < 2 ^ 64) :
    f.basicHeader.getOpcode = f.opcode ∧ getPayloadSize f.basicHeader f.extendedHeader = f.payload.length ∧
    getMaskingKey f.basicHeader f.extendedHeader = f.key.getD fun _ => 0 :=
  ⟨BasicHeader.getOpcode_construct .., getPayloadSize_construct _ _ _ _ _ _ hlen _,
    getMaskingKey_construct ..⟩

/-- A frame is as long as what it carries. -/
theorem length_sent (f : Frame) : f.sent.length = f.payload.length := by
  unfold sent
  cases f.key <;> simp

/-- The end of a message: it is ready, and the processor is between two frames again. -/
theorem consume_ready {e : Endpoint} {m : Processor} {md : MsgMetadata} {msg : Option Message}
    (hsound : m.Sound e) (hready : m.state = .ready) (hcur : m.current = some md)
    (hdata : (m.setCurrent none).dataMsg.map (·.message) = msg) (rest : List UInt8) :
    ∃ m₁ m', Between e msg m' ∧ m₁.state = .ready ∧ m.consume e rest = .ok (m₁, rest) ∧
      m₁.getMessage = (some md.message, m') := by
  obtain ⟨md', hmd', -, hget, hwait⟩ := hsound.getMessage hready
  rw [hcur] at hmd'
  cases hmd'
  have hover : ¬ m.Continues rest := fun hc => hc.1 hready
  exact ⟨m, _, ⟨hwait, rfl, hdata⟩, hready, Processor.consume_of_not_continues hover, hget⟩

/-- The payload of a control frame is read, and makes a message of its own. -/
theorem Opened.consume_control {e : Endpoint} {f : Frame} {m : Processor} {msg : Option Message}
    (hcur : m.currentMsg = .control) (hop : f.opcode.isControl = true) (hfin : f.fin = true)
    (h : Opened e f (.construct (.construct f.opcode) (f.key.getD fun _ => 0)) m)
    (hdata : m.dataMsg.map (·.message) = msg) (rest : List UInt8) :
    ∃ m₁ m', Between e msg m' ∧ m₁.state = .ready ∧
      ((m.processPayloadBytes f.sent).bind fun m => m.finishFrame.bind fun m => m.consume e rest) =
        .ok (m₁, rest) ∧
      m₁.getMessage = (some { Message.construct f.opcode with payload := f.payload }, m') := by
  have htext : f.opcode ≠ .text := fun h => by
    rw [h] at hop
    cases hop
  rcases h.processPayloadBytes (MsgMetadata.sound_construct _ _) with ⟨h', -, -⟩ |
    ⟨-, md', m', hread, hmessage, hmd', hclosed, hcur', hsame⟩
  · exact absurd h' htext
  · have hfinish := hclosed.finishFrame_fin hmd' hfin fun h => absurd h htext
    rw [if_neg (fun h => htext h.1)] at hfinish
    rw [hcur, if_neg (by decide)] at hsame
    have hset : (Processor.setCurrent { m' with state := .ready } none).dataMsg = m'.dataMsg := by
      unfold Processor.setCurrent
      rw [hcur'.trans hcur]
    have hdone := consume_ready (hclosed.sound.finishFrame hclosed.state hfinish) rfl hclosed.current
      (by rw [hset, hsame, hdata]) rest
    rw [hread, Except.bind, hfinish, Except.bind]
    rwa [hmessage] at hdone

/-- What the processor does where it has read the header of a frame, and a frame makes some messages. -/
def Reads (e : Endpoint) (res : Except ErrorCode (Processor × List UInt8)) (rest : List UInt8) :
    Except ErrorCode (Option Message × Option Message) → Prop
  | .error ec => res = .error ec
  | .ok (msg, none) => ∃ m', Between e msg m' ∧ res = m'.consume e rest
  | .ok (msg, some done) => ∃ m₁ m', Between e msg m' ∧ m₁.state = .ready ∧ res = .ok (m₁, rest) ∧
      m₁.getMessage = (some done, m')

/-- The payload of a data frame is read, and makes of its message what `addData` says. -/
theorem Opened.consume_data {e : Endpoint} {f : Frame} {m : Processor} {md : MsgMetadata}
    (h : Opened e f md m) (hmd : md.Sound) (hcur : m.currentMsg = .data)
    (htext : f.opcode = .text → md.message.opcode = .text) (rest : List UInt8) :
    Reads e ((m.processPayloadBytes f.sent).bind fun m => m.finishFrame.bind fun m => m.consume e rest) rest
      (f.addData { md.message with payload := md.message.payload ++ f.payload }) := by
  unfold addData
  rcases h.processPayloadBytes hmd with ⟨hop, hscan, hread⟩ | ⟨hvalid, md', m', hread, hmessage, hmd', hclosed,
    hcur', hsame⟩
  · rw [if_pos ⟨hop, hscan⟩, hread]
    rfl
  rw [if_neg hvalid, hread, Except.bind]
  rw [if_pos hcur] at hsame
  cases hfin : f.fin with
  | false =>
    rw [if_pos (by decide), hclosed.finishFrame_not_fin hfin, Except.bind]
    refine ⟨m'.resetHeaders, ⟨?_, rfl, ?_⟩, rfl⟩
    · exact Processor.waiting_resetHeaders hclosed.sound.data fun md hmd => hclosed.sound.length_control hmd
    · rw [show m'.resetHeaders.dataMsg = some md' from hsame, Option.map_some, hmessage]
  | true =>
    have hfinish := hclosed.finishFrame_fin hmd' hfin fun h => by rw [hmessage]; exact htext h
    rw [hmessage] at hfinish
    rw [if_neg (by decide)]
    by_cases hbad : f.opcode = .text ∧ scan [] (md.message.payload ++ f.payload) ≠ some []
    · rw [if_pos hbad] at hfinish ⊢
      rw [hfinish]
      rfl
    · rw [if_neg hbad] at hfinish ⊢
      have hset : (Processor.setCurrent { m' with state := .ready } none).dataMsg = none := by
        unfold Processor.setCurrent
        rw [hcur'.trans hcur]
      have hdone := consume_ready (hclosed.sound.finishFrame hclosed.state hfinish) rfl hclosed.current
        (congrArg (Option.map (·.message)) hset) rest
      rw [hfinish, Except.bind]
      rwa [hmessage] at hdone

section Header

variable {e : Endpoint} {f : Frame} {m : Processor} {md : MsgMetadata}

/-- The header of a control frame is read. -/
theorem startPayload_control (hlen : f.payload.length < 2 ^ 64) (hop : f.opcode.isControl = true) :
    (f.afterHeader m).startPayload e = .ok { f.afterHeader m with
      state := .application
      bytesNeeded := f.payload.length
      controlMsg := some (.construct (.construct f.opcode) (f.key.getD fun _ => 0))
      currentMsg := .control } := by
  obtain ⟨hopcode, hsize, hkey⟩ := header_reads hlen
  unfold Processor.startPayload
  simp only [afterHeader, hopcode, hsize, hkey, hop, if_true]

/-- The header of the first frame of a message is read. -/
theorem startPayload_new (hlen : f.payload.length < 2 ^ 64) (hop : ¬ f.opcode.isControl = true)
    (hdata : m.dataMsg = none) :
    (f.afterHeader m).startPayload e = if e.maxMessageSize < f.payload.length then .error .messageTooBig else
      .ok { f.afterHeader m with
        state := .application
        bytesNeeded := f.payload.length
        dataMsg := some (.construct (.construct f.opcode) (f.key.getD fun _ => 0))
        currentMsg := .data } := by
  obtain ⟨hopcode, hsize, hkey⟩ := header_reads hlen
  unfold Processor.startPayload
  simp only [afterHeader, hopcode, hsize, hkey, hop, hdata]
  rfl

/-- The header of one more frame of a message is read. -/
theorem startPayload_more (hlen : f.payload.length < 2 ^ 64) (hop : ¬ f.opcode.isControl = true)
    (hdata : m.dataMsg = some md) :
    (f.afterHeader m).startPayload e =
      if e.maxMessageSize < (md.message.payload.length + f.payload.length) % 2 ^ 64 then .error .messageTooBig else
      .ok { f.afterHeader m with
        state := .application
        bytesNeeded := f.payload.length
        dataMsg := some { md with preparedKey := prepareMaskingKey (f.key.getD fun _ => 0) }
        currentMsg := .data } := by
  obtain ⟨hopcode, hsize, hkey⟩ := header_reads hlen
  unfold Processor.startPayload
  simp only [afterHeader, hopcode, hsize, hkey, hop, hdata]
  rfl

end Header

/-- A processor between two frames reads a frame as `step` says. -/
theorem Between.consume {e : Endpoint} {msg : Option Message} {m : Processor} (h : Between e msg m) (f : Frame)
    (hlen : f.payload.length < 2 ^ 64) (rest : List UInt8) :
    Reads e (m.consume e (f.bytes ++ rest)) rest (f.step e msg) := by
  have hnew : m.dataMsg.isNone = msg.isNone := by
    rw [← h.data]
    cases m.dataMsg <;> rfl
  have hconsume := consume_bytes e f hlen m rest
  rw [h.reset, hnew] at hconsume
  rw [hconsume]
  unfold step
  cases hhead : f.headerError e msg.isNone with
  | some ec => rfl
  | none =>
    obtain ⟨hcontrol, hdata⟩ := headerError_eq_none hhead
    have hvalid := hhead
    rw [← validate_basicHeader, ← hnew] at hvalid
    have hsound : (f.afterHeader m).Sound e := h.waiting.toSound.of_headers (.inr rfl) fun _ => hvalid
    dsimp only
    by_cases hop : f.opcode.isControl = true
    · have hstart := startPayload_control (e := e) (m := m) hlen hop
      have hopened : Opened e f (.construct (.construct f.opcode) (f.key.getD fun _ => 0)) _ :=
        ⟨hsound.startPayload rfl hstart, rfl, rfl, rfl, rfl, (length_sent f).symm⟩
      rw [if_pos hop, hstart]
      exact hopened.consume_control rfl hop (hcontrol hop) h.data rest
    · rw [if_neg hop]
      cases hold : m.dataMsg with
      | none =>
        have hmsg : msg = none := by rw [← h.data, hold]; rfl
        subst hmsg
        have hstart := startPayload_new (e := e) hlen hop hold
        rw [Option.elim_none, Nat.zero_add, Nat.mod_eq_of_lt hlen]
        by_cases hbig : e.maxMessageSize < f.payload.length
        · rw [if_pos hbig] at hstart
          rw [if_pos hbig, hstart]
          rfl
        · rw [if_neg hbig] at hstart
          have hopened : Opened e f (.construct (.construct f.opcode) (f.key.getD fun _ => 0)) _ :=
            ⟨hsound.startPayload rfl hstart, rfl, rfl, rfl, rfl, (length_sent f).symm⟩
          rw [if_neg hbig, hstart]
          exact hopened.consume_data (MsgMetadata.sound_construct _ _) rfl id rest
      | some md =>
        have hmsg : msg = some md.message := by rw [← h.data, hold]; rfl
        subst hmsg
        have hstart := startPayload_more (e := e) hlen hop hold
        rw [Option.elim_some]
        by_cases hbig : e.maxMessageSize < (md.message.payload.length + f.payload.length) % 2 ^ 64
        · rw [if_pos hbig] at hstart
          rw [if_pos hbig, hstart]
          rfl
        · rw [if_neg hbig] at hstart
          have hopened : Opened e f { md with preparedKey := prepareMaskingKey (f.key.getD fun _ => 0) } _ :=
            ⟨hsound.startPayload rfl hstart, rfl, rfl, rfl, rfl, (length_sent f).symm⟩
          have htext : f.opcode ≠ .text := by
            rw [(hdata hop).2 (by simp)]
            decide
          rw [if_neg hbig, hstart]
          exact hopened.consume_data (h.waiting.data md hold).2 rfl (fun h => absurd h htext) rest

/-- The messages in the bytes of a frame, and of what comes after it. -/
theorem Between.decode {e : Endpoint} {msg : Option Message} {m : Processor} (h : Between e msg m) (f : Frame)
    (hlen : f.payload.length < 2 ^ 64) (rest : List UInt8) :
    match f.step e msg with
    | .error ec => m.decode e (f.bytes ++ rest) = ([], .error ec)
    | .ok (msg', done) => ∃ m', Between e msg' m' ∧
        m.decode e (f.bytes ++ rest) = (done.toList ++ (m'.decode e rest).1, (m'.decode e rest).2) := by
  have hreads := h.consume f hlen rest
  have hlonger : rest.length < (f.bytes ++ rest).length := by
    rw [List.length_append, bytes, prepareHeader]
    simp
  rw [Processor.decode]
  cases hstep : f.step e msg with
  | error ec =>
    rw [hstep] at hreads
    rw [show m.consume e (f.bytes ++ rest) = .error ec from hreads]
  | ok r =>
    obtain ⟨msg', done⟩ := r
    rw [hstep] at hreads
    cases done with
    | none =>
      obtain ⟨m', hbetween, hres⟩ := hreads
      refine ⟨m', hbetween, ?_⟩
      rw [hres]
      rcases hbetween.waiting.decode_cases rest with ⟨ec, hres', hdec⟩ | ⟨m'', -, hres', hget, hdec⟩ |
        ⟨m₁, m'', done, rest', -, -, hlt, -, hres', hget, hdec⟩
      · simp only [hres', hdec, Option.toList_none, List.nil_append]
      · simp only [hres', hget, hdec, Option.toList_none, List.nil_append]
      · simp only [hres', hget, hdec, if_pos (hlt.trans hlonger), Option.toList_none, List.nil_append]
    | some done =>
      obtain ⟨m₁, m', hbetween, -, hres, hget⟩ := hreads
      refine ⟨m', hbetween, ?_⟩
      simp only [hres, hget, if_pos hlonger, Option.toList_some, List.singleton_append]

/-- A new processor is between two frames. -/
theorem between_construct (e : Endpoint) : Between e none .construct := ⟨Processor.waiting_construct, rfl, rfl⟩

/-- The processor comes to the messages of any frames that `assemble` gives, and goes on with what is left. -/
theorem Between.assemble {e : Endpoint} {msg : Option Message} {m : Processor} (h : Between e msg m)
    {fs : List Frame} (hlen : ∀ f ∈ fs, f.payload.length < 2 ^ 64) (rest : List UInt8) :
    match assemble e msg fs with
    | (msgs, .error ec) => m.decode e (fs.flatMap bytes ++ rest) = (msgs, .error ec)
    | (msgs, .ok msg') => ∃ m', Between e msg' m' ∧
        m.decode e (fs.flatMap bytes ++ rest) = (msgs ++ (m'.decode e rest).1, (m'.decode e rest).2) := by
  induction fs generalizing msg m with
  | nil => exact ⟨m, h, rfl⟩
  | cons f fs ih =>
    obtain ⟨hf, hfs⟩ := List.forall_mem_cons.1 hlen
    have hstep := h.decode f hf (fs.flatMap bytes ++ rest)
    rw [List.flatMap_cons, List.append_assoc, Frame.assemble]
    cases hres : f.step e msg with
    | error ec =>
      rw [hres] at hstep
      exact hstep
    | ok r =>
      obtain ⟨msg', done⟩ := r
      rw [hres] at hstep
      obtain ⟨m', hbetween, hdec⟩ := hstep
      have hrest := ih hbetween hfs
      dsimp only
      rw [hdec]
      cases hout : Frame.assemble e msg' fs with
      | mk msgs out =>
        rw [hout] at hrest
        cases out with
        | error ec =>
          rw [show m'.decode e (fs.flatMap bytes ++ rest) = (msgs, .error ec) from hrest]
        | ok msg'' =>
          obtain ⟨m'', hbetween', hdec'⟩ := hrest
          exact ⟨m'', hbetween', by rw [hdec', List.append_assoc]⟩

/-- **The processor puts frames together as `assemble` does**, whatever the frames are. -/
theorem decode_frames (e : Endpoint) (fs : List Frame) (hlen : ∀ f ∈ fs, f.payload.length < 2 ^ 64) :
    (Processor.construct.decode e (fs.flatMap bytes)).1 = (assemble e none fs).1 ∧
    match (assemble e none fs).2 with
    | .error ec => (Processor.construct.decode e (fs.flatMap bytes)).2 = .error ec
    | .ok msg => ∃ m, (Processor.construct.decode e (fs.flatMap bytes)).2 = .ok m ∧
        m.resetHeaders = m ∧ m.dataMsg.map (·.message) = msg := by
  have hall := (between_construct e).assemble hlen []
  rw [List.append_nil] at hall
  cases hout : assemble e none fs with
  | mk msgs out =>
    rw [hout] at hall
    cases out with
    | error ec =>
      rw [show Processor.construct.decode e (fs.flatMap bytes) = (msgs, .error ec) from hall]
      exact ⟨rfl, rfl⟩
    | ok msg =>
      obtain ⟨m, hbetween, hdec⟩ := hall
      rw [hdec, hbetween.waiting.decode_nil, List.append_nil]
      exact ⟨rfl, m, rfl, hbetween.reset, hbetween.data⟩

/-- A text in two frames, with a ping between them. -/
def twoFrames : List Frame :=
  [⟨false, false, false, false, .text, none, [72]⟩, ⟨true, false, false, false, .ping, none, [1, 2]⟩,
    ⟨true, false, false, false, .continuation, none, [105]⟩]

/-- The text and the ping come out of the bytes of the frames. -/
theorem decode_frames_two :
    (∀ f ∈ twoFrames, f.payload.length < 2 ^ 64) ∧
    (Processor.construct.decode ⟨false, 100, fun _ _ => 0⟩ (twoFrames.flatMap bytes)).1 =
      [{ Message.construct .ping with payload := [1, 2] },
        { Message.construct .text with payload := [72, 105] }] :=
  ⟨by decide, (decode_frames _ _ (by decide)).1.trans (by decide)⟩

end Frame

end Typhoon.WebSocket
