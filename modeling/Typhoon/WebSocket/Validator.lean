import Typhoon.Json.Escape

/-!
# The UTF-8 validator

`websocketpp/utf8_validator.hpp`, through which the text that arrives on a connection goes piece by piece. Its
table is, entry by entry, the one that the JSON library has for its strings. What the validator says of a byte
string is what `Utf8.scan` says (`decode_eq_scan`), so `validate` accepts the valid ones (`validate_iff`).
-/

namespace Typhoon.WebSocket

open Json (utf8d stateOf pendings)
open Utf8 (next scan)

/-- The members of `validator`. -/
structure Validator where
  state : UInt32
  codepoint : UInt32
  deriving DecidableEq

namespace Validator

/-- The constructor. -/
def construct : Validator := ⟨0, 0⟩

/-- `utf8_validator::decode`: the next state and the next value of the code point. -/
def decodeByte (state codep : UInt32) (byte : UInt8) : UInt32 × UInt32 :=
  let type := utf8d.getD byte.toNat 0
  ((utf8d.getD (256 + state.toNat * 16 + type.toNat) 0).toUInt32,
    if state ≠ 0 then byte.toUInt32 &&& (0x3F : UInt32) ||| codep <<< 6
    else (0xFF : UInt32) >>> type.toUInt32 &&& byte.toUInt32)

/-- `decode`, which stops at the first byte that cannot be there. -/
def decode (v : Validator) : List UInt8 → Validator × Bool
  | [] => (v, true)
  | byte :: s =>
    let (state, codepoint) := decodeByte v.state v.codepoint byte
    if state = 1 then ({ state, codepoint }, false) else decode { state, codepoint } s

/-- `complete`. -/
def complete (v : Validator) : Bool := v.state = 0

/-- `utf8_validator::validate`. -/
def validate (s : List UInt8) : Bool :=
  let (v, valid) := construct.decode s
  valid && v.complete

/-- Bytes in two pieces are decoded one after the other, up to the first error. -/
theorem decode_append (v : Validator) (a b : List UInt8) :
    v.decode (a ++ b) = if (v.decode a).2 = true then (v.decode a).1.decode b else v.decode a := by
  induction a generalizing v with
  | nil => rfl
  | cons byte a ih =>
    rw [List.cons_append, decode, decode]
    by_cases hreject : (decodeByte v.state v.codepoint byte).1 = 1
    · simp only [hreject, if_true, if_false, Bool.false_eq_true]
    · simp only [hreject, if_false]
      exact ih _

/-- The validator is in the state for some ranges. -/
def Expects (v : Validator) (rs : List (UInt8 × UInt8)) : Prop :=
  rs ∈ pendings ∧ v.state = (stateOf rs).toUInt32

/-- At the start, no bytes are to come. -/
theorem expects_construct : construct.Expects [] := ⟨by decide, rfl⟩

/-- The state after one byte is the one for the bytes that are to come then. -/
theorem decodeByte_state {v : Validator} {rs : List (UInt8 × UInt8)} (h : v.Expects rs) (byte : UInt8) :
    (decodeByte v.state v.codepoint byte).1 = match next rs byte with
      | some rs' => (stateOf rs').toUInt32
      | none => 1 := by
  have hdec := congrArg UInt8.toUInt32 (Json.decode_state h.1 0 byte)
  rw [h.2]
  refine Eq.trans hdec ?_
  cases next rs byte <;> rfl

/-- The validator is complete in the state in which no bytes are to come. -/
theorem complete_iff {v : Validator} {rs : List (UInt8 × UInt8)} (h : v.Expects rs) :
    v.complete = true ↔ rs = [] := by
  have hinj : ∀ a b : UInt8, a.toUInt32 = b.toUInt32 ↔ a = b := fun a b => by
    rw [← UInt32.toNat_inj, UInt8.toNat_toUInt32, UInt8.toNat_toUInt32, UInt8.toNat_inj]
  rw [complete, decide_eq_true_iff, h.2, ← Json.stateOf_eq_accept_iff h.1]
  exact hinj (stateOf rs) 0

/-- The validator goes through a byte string as `scan` does. -/
theorem decode_eq_scan {v : Validator} {rs : List (UInt8 × UInt8)} (h : v.Expects rs) (s : List UInt8) :
    match scan rs s with
    | some rs' => (v.decode s).2 = true ∧ (v.decode s).1.Expects rs'
    | none => (v.decode s).2 = false := by
  induction s generalizing v rs with
  | nil => exact ⟨rfl, h⟩
  | cons byte s ih =>
    have hstate := decodeByte_state h byte
    rw [scan, decode]
    dsimp only
    cases hnext : next rs byte with
    | none =>
      rw [hnext] at hstate
      rw [if_pos hstate]
      rfl
    | some rs₁ =>
      rw [hnext] at hstate
      have hpend := Json.mem_pendings_of_next h.1 hnext
      have hne : (decodeByte v.state v.codepoint byte).1 ≠ 1 := by
        rw [hstate]
        intro heq
        refine Json.stateOf_ne_reject hpend ?_
        exact UInt8.toNat_inj.1 ((UInt8.toNat_toUInt32 _).symm.trans (congrArg UInt32.toNat heq))
      rw [if_neg hne]
      exact ih ⟨hpend, hstate⟩

/-- A byte string is validated exactly when it is valid UTF-8. -/
theorem validate_iff (s : List UInt8) : validate s = true ↔ Utf8.Valid s := by
  have h := decode_eq_scan expects_construct s
  rw [← Utf8.scan_eq_nil_iff, validate]
  cases hscan : scan [] s with
  | none =>
    rw [hscan] at h
    simp [show (construct.decode s).2 = false from h]
  | some rs =>
    rw [hscan] at h
    show ((construct.decode s).2 && (construct.decode s).1.complete) = true ↔ _
    rw [h.1, Bool.true_and, complete_iff h.2, Option.some.injEq]

end Validator

end Typhoon.WebSocket
