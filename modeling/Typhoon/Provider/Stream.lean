import Typhoon.Json.Length
import Typhoon.Provider.Forward
import Typhoon.WebSocket.Size

/-!
# From the bytes of the exchange to the messages of the provider

The provider's WebSocket client and its `on_message` together. The client hands over no message above its limit of
32000000 bytes, and the text that is dumped for such a message has a length that an `int` holds: so `Pusher::send`
throws nothing, and the provider forwards the messages up to the first one that is no JSON text, whatever bytes the
exchange sends and however they arrive (`sent_stream`). An exchange that keeps to the two formats has every message
forwarded (`sent_sendings`).
-/

namespace Typhoon.Provider

open Json WebSocket

/-- The endpoint of the provider. The limit is the `max_message_size` of its `config`. -/
def client (rng : ℕ → MaskingKey) : Endpoint where
  isServer := false
  maxMessageSize := 32000000
  rng := rng

variable (F : Type*) [NumberFloat F]

/-- The messages that the provider sends for the bytes that it reads. -/
def sent (e : Endpoint) (bufs : List (List UInt8)) : List (List UInt8) :=
  forwarded F ((Connection.start.reads e bufs).2.map fun msg => msg.payload)

/-- A payload, and what is sent for it. -/
def Forwards (payload out : List UInt8) : Prop :=
  ∃ j : Json F, parse payload = .ok j ∧ parse out = .ok (asRead j)

variable {F}

/-- The text that is dumped for a payload within the limit has a length that an `int` holds. -/
theorem fits_of_length [LawfulNumberFloat F] [ShortNumberFloat F] {payload : List UInt8}
    (h : payload.length ≤ 32000000) : Fits F payload := by
  intro j hparse text hdump
  have hlen := (length_dump j hdump).trans (room_le_of_parse hparse)
  -- 25 times 32000000 is below `2 ^ 31`.
  omega

/-- What is sent for a list of payloads: something for each, up to one that is no JSON text. -/
theorem exists_forwards [LawfulNumberFloat F] {payloads : List (List UInt8)} (hfits : ∀ p ∈ payloads, Fits F p) :
    ∃ n, List.Forall₂ (Forwards F) (payloads.take n) (forwarded F payloads) ∧
      ∀ p ∈ payloads[n]?, ∃ e, parse (F := F) p = .error e := by
  induction payloads with
  | nil => exact ⟨0, .nil, fun p hp => by cases hp⟩
  | cons payload payloads ih =>
    obtain ⟨hfit, hrest⟩ := List.forall_mem_cons.1 hfits
    cases h : parse (F := F) payload with
    | error e =>
      -- The exception ends the provider.
      refine ⟨0, ?_, fun p hp => ?_⟩
      · rw [forwarded_cons_of_error F (onMessage_of_error F h)]
        exact .nil
      · cases hp
        exact ⟨e, h⟩
    | ok j =>
      obtain ⟨out, hout, hparse, -⟩ := onMessage_of_parse F hfit h
      obtain ⟨n, hsent, hstop⟩ := ih hrest
      refine ⟨n + 1, ?_, hstop⟩
      rw [forwarded_cons_of_ok F hout]
      exact .cons ⟨j, h, hparse⟩ hsent

variable [LawfulNumberFloat F] [ShortNumberFloat F]

/-- **What the provider sends for any bytes of the exchange**, in any reads: for each data message before the first
close frame, up to one that is no JSON text, the text of the same value. -/
theorem sent_stream (rng : ℕ → MaskingKey) {bufs : List (List UInt8)} (hlen : bufs.flatten.length < 2 ^ 64) :
    ∃ n,
      List.Forall₂ (fun msg out => Forwards F msg.payload out)
        ((handled (Processor.construct.decode (client rng) bufs.flatten).1).take n) (sent F (client rng) bufs) ∧
      ∀ msg ∈ (handled (Processor.construct.decode (client rng) bufs.flatten).1)[n]?,
        ∃ e, parse (F := F) msg.payload = .error e := by
  have hfits : ∀ p ∈ (handled (Processor.construct.decode (client rng) bufs.flatten).1).map (·.payload),
      Fits F p := by
    intro p hp
    obtain ⟨msg, hmsg, rfl⟩ := List.mem_map.1 hp
    obtain ⟨hmem, hop⟩ := mem_handled hmsg
    exact fits_of_length (Processor.length_le_of_mem_decode hlen hmem hop)
  obtain ⟨n, hsent, hstop⟩ := exists_forwards hfits
  rw [← List.map_take, List.forall₂_map_left_iff] at hsent
  rw [sent, Connection.reads_handled]
  refine ⟨n, hsent, fun msg hmsg => hstop _ ?_⟩
  rw [List.getElem?_map]
  exact Option.mem_map_of_mem _ hmsg

/-- Two frames, of which the second one is no JSON text. -/
theorem sent_stream_two :
    [[0x81, 0x01], [0x35, 0x81, 0x01], [0x5D]].flatten.length < 2 ^ 64 ∧
    ∃ n,
      List.Forall₂ (fun msg out => Forwards Sample msg.payload out)
        ((handled (Processor.construct.decode (client fun _ _ => 0)
          [[0x81, 0x01], [0x35, 0x81, 0x01], [0x5D]].flatten).1).take n)
        (sent Sample (client fun _ _ => 0) [[0x81, 0x01], [0x35, 0x81, 0x01], [0x5D]]) ∧
      ∀ msg ∈ (handled (Processor.construct.decode (client fun _ _ => 0)
          [[0x81, 0x01], [0x35, 0x81, 0x01], [0x5D]].flatten).1)[n]?,
        ∃ e, parse (F := Sample) msg.payload = .error e :=
  ⟨by decide, sent_stream _ (by decide)⟩

/-- **What an exchange sends is forwarded.** Messages that hold JSON texts, in any fragments and with any signals
between them, come out of the provider in order, each as a text of the same value, however their bytes arrive. -/
theorem sent_sendings (rng : ℕ → MaskingKey) {xs : List Sending} {bufs : List (List UInt8)}
    (h : ∀ x ∈ xs, x.Allowed (client rng)) (hclose : ∀ x ∈ xs, ∀ s ∈ x.signals, s.opcode ≠ .close)
    (hjson : ∀ x ∈ xs, ∃ j, parse (F := F) x.payload = .ok j) (hbufs : bufs.flatten = sentBytes xs) :
    List.Forall₂ (fun x out => Forwards F x.payload out) xs (sent F (client rng) bufs) := by
  have hhandled : (Connection.start.reads (client rng) bufs).2 = xs.map Sending.message := by
    obtain ⟨hmsgs, -⟩ := decode_sentBytes (show 32000000 < 2 ^ 64 by decide) h
    rw [Connection.reads_handled, hbufs, hmsgs, handled_messages h hclose]
  have hpayloads : (xs.map Sending.message).map (·.payload) = xs.map Sending.payload := by
    rw [List.map_map]
    rfl
  have hfits : ∀ p ∈ xs.map Sending.payload, Fits F p := by
    intro p hp
    obtain ⟨x, hx, rfl⟩ := List.mem_map.1 hp
    exact fits_of_length (h x hx).small
  obtain ⟨n, hsent, hstop⟩ := exists_forwards hfits
  -- No payload is there to stop at.
  have hall : (xs.map Sending.payload).length ≤ n := by
    by_contra hlt
    obtain ⟨e, herror⟩ := hstop _ (List.getElem?_eq_getElem (not_le.1 hlt))
    obtain ⟨x, hx, hpayload⟩ := List.mem_map.1 (List.getElem_mem (not_le.1 hlt))
    obtain ⟨j, hparse⟩ := hjson x hx
    rw [← hpayload, hparse] at herror
    cases herror
  rw [List.take_of_length_le hall, List.forall₂_map_left_iff] at hsent
  rwa [sent, hhandled, hpayloads]

/-- The array of a half in two fragments, with a ping between them. -/
def half : Sending where
  opcode := .text
  first := ⟨[], ['[', '0', '.'].map Char.toUInt8, none⟩
  rest := [⟨[⟨.ping, [1], none⟩], ['5', ']'].map Char.toUInt8, none⟩]

/-- The array of a half, cut into two reads, is forwarded. -/
theorem sent_sendings_half :
    half.Allowed (client fun _ _ => 0) ∧
    List.Forall₂ (fun x out => Forwards Sample x.payload out) [half]
      (sent Sample (client fun _ _ => 0) [(sentBytes [half]).take 3, (sentBytes [half]).drop 3]) := by
  have hhalf : half.Allowed (client fun _ _ => 0) := by
    refine ⟨.inl rfl, fun y hy => ?_, by decide, fun _ h => (nomatch h), fun _ =>
      ⟨[], Utf8.scan_eq_nil_iff.1 (by decide)⟩⟩
    rcases List.mem_cons.1 hy with rfl | hy
    · exact ⟨fun s hs => (nomatch hs), rfl⟩
    · rw [List.mem_singleton.1 hy]
      refine ⟨fun s hs => ?_, rfl⟩
      rw [List.mem_singleton.1 hs]
      exact ⟨rfl, rfl, by decide, rfl⟩
  have hbufs : [(sentBytes [half]).take 3, (sentBytes [half]).drop 3].flatten = sentBytes [half] := by
    simp only [List.flatten_cons, List.flatten_nil, List.append_nil, List.take_append_drop]
  refine ⟨hhalf, sent_sendings _ ?_ ?_ ?_ hbufs⟩
  · exact List.forall_mem_singleton.2 hhalf
  · decide
  · exact List.forall_mem_singleton.2 ⟨.array [.numberFloat .half], rfl⟩

end Typhoon.Provider
