import Typhoon.Json.Access
import Typhoon.Library.Throwing

/-!
# What the provider forwards

`on_message` of `src/provider/provider.cpp` parses the payload of a WebSocket message, and sends the text
that the value is dumped to. `Pusher::send` keeps the length of the text in an `int`. Nothing catches what
the library throws, so the provider ends at the first payload that is no JSON text.

What is forwarded is parsed to the value that was parsed, as it is read back (`parse_onMessage`), and it is
forwarded as it is by another provider (`forwarded_forwarded`).
-/

namespace Typhoon.Provider

open Json

/-- What `on_message` throws. -/
inductive ForwardError
  /-- The exception of the JSON library. -/
  | json (e : JsonError)
  /-- The exception of `zmq::message_t`, when there is no message of the size. -/
  | message

/-- `Pusher::send`: the bytes of the message that is sent. -/
def send (msg : List UInt8) : Except ForwardError (List UInt8) :=
  let len := Int32.ofNat msg.length
  -- A negative length is a size that cannot be allocated.
  if len < 0 then .error .message else .ok (msg.take len.toInt.toNat)

variable (F : Type*) [NumberFloat F]

/-- `on_message`. -/
def onMessage (payload : List UInt8) : Except ForwardError (List UInt8) :=
  match parse (F := F) payload with
  | .error e => .error (.json e)
  | .ok j3 =>
    match dump j3 with
    | .error e => .error (.json e)
    | .ok text => send text

/-- The provider, a payload at a time. -/
def provider : Throwing Unit (List UInt8) (Option (List UInt8)) ForwardError where
  step _ payload :=
    match onMessage F payload with
    | .ok msg => (some msg, .ok ())
    | .error e => (none, .error e)

/-- The messages that are sent for a list of payloads. -/
def forwarded (payloads : List (List UInt8)) : List (List UInt8) :=
  ((provider F).run () payloads).reduceOption

/-- A payload whose text has a length that an `int` holds. -/
def Fits (payload : List UInt8) : Prop :=
  ∀ j : Json F, parse payload = .ok j → ∀ text, dump j = .ok text → text.length < 2 ^ 31

/-- The length is that of the text that the payload is dumped to, if it is. -/
instance (payload : List UInt8) : Decidable (Fits F payload) :=
  match hparse : parse (F := F) payload with
  | .error _ => .isTrue fun j h => by
    rw [hparse] at h
    cases h
  | .ok j =>
    match hdump : dump j with
    | .error _ => .isTrue fun k h text htext => by
      cases hparse.symm.trans h
      cases hdump.symm.trans htext
    | .ok text =>
      if hlen : text.length < 2 ^ 31 then .isTrue fun k h text' htext => by
        cases hparse.symm.trans h
        cases hdump.symm.trans htext
        exact hlen
      else .isFalse fun h => hlen (h j hparse text hdump)

/-- A text with a length that an `int` holds is sent as it is. -/
theorem send_eq {msg : List UInt8} (h : msg.length < 2 ^ 31) : send msg = .ok msg := by
  have hlen : (Int32.ofNat msg.length).toInt = msg.length := Int32.toInt_ofNat_of_lt h
  have hnonneg : ¬ Int32.ofNat msg.length < 0 := by
    rw [Int32.lt_iff_toInt_lt, hlen]
    exact not_lt.2 (Int.natCast_nonneg _)
  unfold send
  dsimp only
  rw [if_neg hnonneg, hlen, Int.toNat_natCast, List.take_length]

/-- A payload that is forwarded is followed by what is forwarded of the rest. -/
theorem forwarded_cons_of_ok {payload msg : List UInt8} (h : onMessage F payload = .ok msg)
    (payloads : List (List UInt8)) :
    forwarded F (payload :: payloads) = msg :: forwarded F payloads := by
  have hstep : (provider F).step () payload = (some msg, .ok ()) := by
    simp only [provider, h]
  rw [forwarded, Throwing.run_cons_of_ok (by rw [hstep]), hstep]
  rfl

/-- A payload that throws ends the provider: nothing is forwarded of it and of the rest. -/
theorem forwarded_cons_of_error {payload : List UInt8} {e : ForwardError}
    (h : onMessage F payload = .error e) (payloads : List (List UInt8)) :
    forwarded F (payload :: payloads) = [] := by
  have hstep : (provider F).step () payload = (none, .error e) := by
    simp only [provider, h]
  rw [forwarded, Throwing.run_cons_of_error (by rw [hstep]), hstep]
  rfl

variable [LawfulNumberFloat F]

/-- What `on_message` makes of a payload that is parsed, and then of what it sent for it. -/
theorem onMessage_of_parse {payload : List UInt8} (hfits : Fits F payload) {j : Json F}
    (h : parse payload = .ok j) :
    ∃ msg, onMessage F payload = .ok msg ∧ parse msg = .ok (asRead j) ∧ onMessage F msg = .ok msg := by
  obtain ⟨msg, hdump, hparse⟩ :=
    parse_dump ((text_of_parse h).wellFormed.mono fun x _ => Set.mem_univ x)
  have hsend := send_eq (hfits j h msg hdump)
  refine ⟨msg, ?_, hparse, ?_⟩
  · rw [onMessage, h]
    dsimp only
    rw [hdump]
    exact hsend
  · rw [onMessage, hparse]
    dsimp only
    rw [dump_asRead, hdump]
    exact hsend

omit [LawfulNumberFloat F] in
/-- What `on_message` makes of a payload that is not parsed. -/
theorem onMessage_of_error {payload : List UInt8} {e : JsonError}
    (h : parse (F := F) payload = .error e) : onMessage F payload = .error (.json e) := by
  rw [onMessage, h]

/-- What is forwarded for a payload, whose text has a length that an `int` holds, is parsed to a value that the
library takes for the payload's, and it is forwarded as it is. -/
theorem parse_onMessage {payload : List UInt8} (hfits : Fits F payload) {j : Json F}
    (h : parse payload = .ok j) :
    ∃ msg, onMessage F payload = .ok msg ∧ parse msg = .ok (asRead j) ∧ eq (asRead j) j = true ∧
      onMessage F msg = .ok msg := by
  obtain ⟨msg, hmsg, hparse, hagain⟩ := onMessage_of_parse F hfits h
  exact ⟨msg, hmsg, hparse, eq_asRead (text_of_parse h).wellFormed, hagain⟩

/-- The text forwarded for `[0.5]` is parsed to the array of a half. -/
theorem parse_onMessage_array : ∃ msg,
    onMessage Sample (['[', '0', '.', '5', ']'].map Char.toUInt8) = .ok msg ∧
      parse msg = .ok (asRead (.array [.numberFloat Sample.half])) ∧
      eq (asRead (.array [.numberFloat Sample.half])) (.array [.numberFloat Sample.half]) = true ∧
      onMessage Sample msg = .ok msg :=
  parse_onMessage Sample (by decide +kernel) rfl

/-- A second provider forwards what it gets as it is, up to the end, where an `int` holds the lengths of the
texts. -/
theorem forwarded_forwarded {payloads : List (List UInt8)} (hfits : ∀ p ∈ payloads, Fits F p) :
    forwarded F (forwarded F payloads) = forwarded F payloads := by
  induction payloads with
  | nil => rfl
  | cons payload payloads ih =>
    obtain ⟨hfit, hrest⟩ := List.forall_mem_cons.1 hfits
    cases h : parse (F := F) payload with
    | error e => rw [forwarded_cons_of_error F (onMessage_of_error F h)]; rfl
    | ok j =>
      obtain ⟨msg, hmsg, -, hagain⟩ := onMessage_of_parse F hfit h
      rw [forwarded_cons_of_ok F hmsg, forwarded_cons_of_ok F hagain, ih hrest]

/-- Two providers one after the other, and two payloads. -/
theorem forwarded_forwarded_two :
    forwarded Sample (forwarded Sample [['[', ' ', '0', '.', '5', ']'].map Char.toUInt8,
      ['\x7b', '"', 'a', '"', ':', '7', '\x7d'].map Char.toUInt8]) =
    forwarded Sample [['[', ' ', '0', '.', '5', ']'].map Char.toUInt8,
      ['\x7b', '"', 'a', '"', ':', '7', '\x7d'].map Char.toUInt8] :=
  forwarded_forwarded Sample (List.forall_mem_cons.2 ⟨by decide +kernel,
    List.forall_mem_singleton.2 (by decide +kernel)⟩)

end Typhoon.Provider
