import Typhoon.Json.Parser

/-!
# The serializer

`dump` writes a value as text without indentation, as the three programs do before they send it. Strings
are written by `dumpEscaped` through a buffer of 512 bytes, which decodes them with the table of `utf8d` on
the way and throws at what is no UTF-8. Integers are written digit by digit. For a float, `grisu2` finds
the digits and `formatBuffer` lays them out.
-/

namespace Typhoon.Json

/-! ## Strings -/

/-- The table of `decode`: the types of the bytes, and then the next states, 16 for each state. -/
def utf8d : List UInt8 := [
  0, 0, 0, 0, 0, 0, 0, 0, 0, 0, 0, 0, 0, 0, 0, 0, 0, 0, 0, 0, 0, 0, 0, 0, 0, 0, 0, 0, 0, 0, 0, 0,
  0, 0, 0, 0, 0, 0, 0, 0, 0, 0, 0, 0, 0, 0, 0, 0, 0, 0, 0, 0, 0, 0, 0, 0, 0, 0, 0, 0, 0, 0, 0, 0,
  0, 0, 0, 0, 0, 0, 0, 0, 0, 0, 0, 0, 0, 0, 0, 0, 0, 0, 0, 0, 0, 0, 0, 0, 0, 0, 0, 0, 0, 0, 0, 0,
  0, 0, 0, 0, 0, 0, 0, 0, 0, 0, 0, 0, 0, 0, 0, 0, 0, 0, 0, 0, 0, 0, 0, 0, 0, 0, 0, 0, 0, 0, 0, 0,
  1, 1, 1, 1, 1, 1, 1, 1, 1, 1, 1, 1, 1, 1, 1, 1, 9, 9, 9, 9, 9, 9, 9, 9, 9, 9, 9, 9, 9, 9, 9, 9,
  7, 7, 7, 7, 7, 7, 7, 7, 7, 7, 7, 7, 7, 7, 7, 7, 7, 7, 7, 7, 7, 7, 7, 7, 7, 7, 7, 7, 7, 7, 7, 7,
  8, 8, 2, 2, 2, 2, 2, 2, 2, 2, 2, 2, 2, 2, 2, 2, 2, 2, 2, 2, 2, 2, 2, 2, 2, 2, 2, 2, 2, 2, 2, 2,
  0xA, 0x3, 0x3, 0x3, 0x3, 0x3, 0x3, 0x3, 0x3, 0x3, 0x3, 0x3, 0x3, 0x4, 0x3, 0x3,
  0xB, 0x6, 0x6, 0x6, 0x5, 0x8, 0x8, 0x8, 0x8, 0x8, 0x8, 0x8, 0x8, 0x8, 0x8, 0x8,
  0x0, 0x1, 0x2, 0x3, 0x5, 0x8, 0x7, 0x1, 0x1, 0x1, 0x4, 0x6, 0x1, 0x1, 0x1, 0x1,
  1, 1, 1, 1, 1, 1, 1, 1, 1, 1, 1, 1, 1, 1, 1, 1, 1, 0, 1, 1, 1, 1, 1, 0, 1, 0, 1, 1, 1, 1, 1, 1,
  1, 2, 1, 1, 1, 1, 1, 2, 1, 2, 1, 1, 1, 1, 1, 1, 1, 1, 1, 1, 1, 1, 1, 2, 1, 1, 1, 1, 1, 1, 1, 1,
  1, 2, 1, 1, 1, 1, 1, 1, 1, 2, 1, 1, 1, 1, 1, 1, 1, 1, 1, 1, 1, 1, 1, 3, 1, 3, 1, 1, 1, 1, 1, 1,
  1, 3, 1, 1, 1, 1, 1, 3, 1, 3, 1, 1, 1, 1, 1, 1, 1, 3, 1, 1, 1, 1, 1, 1, 1, 1, 1, 1, 1, 1, 1, 1]

/-- The state in which `decode` has found a code point. -/
abbrev utf8Accept : UInt8 := 0

/-- The state in which `decode` has found an invalid byte. -/
abbrev utf8Reject : UInt8 := 1

/-- `decode`: the next state and the next value of the code point. -/
def decode (state : UInt8) (codep : UInt32) (byte : UInt8) : UInt8 × UInt32 :=
  let type := utf8d.getD byte.toNat 0
  (utf8d.getD (256 + state.toNat * 16 + type.toNat) 0,
    if state ≠ utf8Accept then byte.toUInt32 &&& (0x3F : UInt32) ||| codep <<< 6
    else (0xFF : UInt32) >>> type.toUInt32 &&& byte.toUInt32)

/-- A digit of `%x`. -/
def hexDigit (n : ℕ) : UInt8 := if n < 10 then UInt8.ofNat (0x30 + n) else UInt8.ofNat (0x57 + n)

/-- What is written at the last byte of a code point. -/
def escapeBytes (codepoint : UInt32) (byte : UInt8) : List UInt8 :=
  if codepoint = 0x08 then ['\\'.toUInt8, 'b'.toUInt8]
  else if codepoint = 0x09 then ['\\'.toUInt8, 't'.toUInt8]
  else if codepoint = 0x0A then ['\\'.toUInt8, 'n'.toUInt8]
  else if codepoint = 0x0C then ['\\'.toUInt8, 'f'.toUInt8]
  else if codepoint = 0x0D then ['\\'.toUInt8, 'r'.toUInt8]
  else if codepoint = 0x22 then ['\\'.toUInt8, '"'.toUInt8]
  else if codepoint = 0x5C then ['\\'.toUInt8, '\\'.toUInt8]
  else if codepoint ≤ 0x1F then
    ['\\'.toUInt8, 'u'.toUInt8, hexDigit (codepoint.toNat / 4096 % 16),
      hexDigit (codepoint.toNat / 256 % 16), hexDigit (codepoint.toNat / 16 % 16),
      hexDigit (codepoint.toNat % 16)]
  else [byte]

/-- The variables of `dump_escaped`, with the bytes written to `string_buffer` and to the output. -/
structure Escaping where
  state : UInt8
  codepoint : UInt32
  stringBuffer : List UInt8
  output : List UInt8
  deriving DecidableEq

/-- `dump_escaped` before its loop. -/
def Escaping.start : Escaping where
  state := utf8Accept
  codepoint := 0
  stringBuffer := []
  output := []

/-- The pass of the loop of `dump_escaped` at the byte with the index `i`. -/
def Escaping.step (e : Escaping) (i : ℕ) (byte : UInt8) : Except JsonError Escaping :=
  let (state, codepoint) := decode e.state e.codepoint byte
  if state = utf8Accept then
    let stringBuffer := e.stringBuffer ++ escapeBytes codepoint byte
    -- The buffer is written out when another code point might not fit.
    if 512 - stringBuffer.length < 13 then
      .ok { state, codepoint, stringBuffer := [], output := e.output ++ stringBuffer }
    else .ok { state, codepoint, stringBuffer, output := e.output }
  else if state = utf8Reject then .error (.invalidUtf8 i byte)
  else .ok { state, codepoint, stringBuffer := e.stringBuffer ++ [byte], output := e.output }

/-- The loop of `dump_escaped` from the index `i` on. -/
def Escaping.loop (e : Escaping) (i : ℕ) : List UInt8 → Except JsonError Escaping
  | [] => .ok e
  | byte :: s =>
    match e.step i byte with
    | .error error => .error error
    | .ok e => e.loop (i + 1) s

/-- `dump_escaped`. -/
def dumpEscaped (s : List UInt8) : Except JsonError (List UInt8) :=
  match Escaping.start.loop 0 s with
  | .error error => .error error
  | .ok e =>
    if e.state = utf8Accept then .ok (e.output ++ e.stringBuffer)
    else .error (.incompleteUtf8 (s.getLastD 0))

/-! ## Integers -/

/-- The loop of `dump_integer`, which writes the last digit first. -/
def digitsLoop (x : ℤ) : List UInt8 :=
  if x = 0 then [] else UInt8.ofNat (0x30 + (x.tmod 10).natAbs) :: digitsLoop (x.tdiv 10)
termination_by x.natAbs
decreasing_by
  rename_i h
  rw [Int.natAbs_tdiv]
  exact Nat.div_lt_self (Int.natAbs_pos.2 h) (by decide)

/-- `dump_integer`. -/
def dumpInteger (x : ℤ) : List UInt8 :=
  if x = 0 then ['0'.toUInt8]
  else (digitsLoop x ++ if x ≤ 0 ∧ x ≠ 0 then ['-'.toUInt8] else []).reverse

/-! ## Floats -/

/-- `append_exponent`. -/
def appendExponent (e : ℤ) : List UInt8 :=
  let k := e.natAbs
  (if e < 0 then '-'.toUInt8 else '+'.toUInt8) ::
    if k < 10 then ['0'.toUInt8, UInt8.ofNat (0x30 + k)]
    else if k < 100 then [UInt8.ofNat (0x30 + k / 10), UInt8.ofNat (0x30 + k % 10)]
    else
      [UInt8.ofNat (0x30 + k / 100), UInt8.ofNat (0x30 + k % 100 / 10),
        UInt8.ofNat (0x30 + k % 100 % 10)]

/-- `format_buffer`: the text of the number with the digits `buf`, times a power of ten. -/
def formatBuffer (buf : List UInt8) (decimalExponent minExp maxExp : ℤ) : List UInt8 :=
  let k := buf.length
  let n := k + decimalExponent
  if k ≤ n ∧ n ≤ maxExp then
    buf ++ List.replicate (n - k).toNat '0'.toUInt8 ++ ['.'.toUInt8, '0'.toUInt8]
  else if 0 < n ∧ n ≤ maxExp then buf.take n.toNat ++ '.'.toUInt8 :: buf.drop n.toNat
  else if minExp < n ∧ n ≤ 0 then
    '0'.toUInt8 :: '.'.toUInt8 :: (List.replicate (-n).toNat '0'.toUInt8 ++ buf)
  else
    (if k = 1 then buf else buf.take 1 ++ '.'.toUInt8 :: buf.drop 1) ++
      'e'.toUInt8 :: appendExponent (n - 1)

variable {F : Type*} [NumberFloat F]

/-- `to_chars` for a number that is neither negative nor zero. -/
def toCharsPos (value : F) : List UInt8 :=
  formatBuffer (NumberFloat.grisu2 value).1 (NumberFloat.grisu2 value).2 (-4) 15

/-- `to_chars` after the sign. -/
def toCharsAbs (value : F) : List UInt8 :=
  if NumberFloat.isZero value then ['0'.toUInt8, '.'.toUInt8, '0'.toUInt8] else toCharsPos value

/-- `to_chars`. -/
def toChars (value : F) : List UInt8 :=
  if NumberFloat.signbit value then '-'.toUInt8 :: toCharsAbs (NumberFloat.neg value)
  else toCharsAbs value

/-- `dump_float`. -/
def dumpFloat (x : F) : List UInt8 :=
  if NumberFloat.isfinite x then toChars x else ['n', 'u', 'l', 'l'].map Char.toUInt8

/-! ## Values -/

mutual

/-- `dump`, without indentation. -/
def dump : Json F → Except JsonError (List UInt8)
  | .object [] => .ok ['\x7b'.toUInt8, '\x7d'.toUInt8]
  | .object (m :: o) =>
    match dumpMembers (m :: o) with
    | .ok text => .ok ('\x7b'.toUInt8 :: (text ++ ['\x7d'.toUInt8]))
    | .error e => .error e
  | .array [] => .ok ['['.toUInt8, ']'.toUInt8]
  | .array (j :: a) =>
    match dumpElements (j :: a) with
    | .ok text => .ok ('['.toUInt8 :: (text ++ [']'.toUInt8]))
    | .error e => .error e
  | .string s =>
    match dumpEscaped s with
    | .ok text => .ok ('"'.toUInt8 :: (text ++ ['"'.toUInt8]))
    | .error e => .error e
  | .boolean true => .ok (['t', 'r', 'u', 'e'].map Char.toUInt8)
  | .boolean false => .ok (['f', 'a', 'l', 's', 'e'].map Char.toUInt8)
  | .numberInteger n => .ok (dumpInteger n.toInt)
  | .numberUnsigned n => .ok (dumpInteger n.toNat)
  | .numberFloat x => .ok (dumpFloat x)
  | .null => .ok (['n', 'u', 'l', 'l'].map Char.toUInt8)

/-- The members of an object, with a comma after each but the last one. -/
def dumpMembers : Members F → Except JsonError (List UInt8)
  | [] => .ok []
  | [(key, value)] =>
    match dumpEscaped key, dump value with
    | .ok key, .ok value => .ok ('"'.toUInt8 :: (key ++ '"'.toUInt8 :: ':'.toUInt8 :: value))
    | .error e, _ => .error e
    | _, .error e => .error e
  | (key, value) :: m :: o =>
    match dumpEscaped key, dump value, dumpMembers (m :: o) with
    | .ok key, .ok value, .ok text =>
      .ok ('"'.toUInt8 :: (key ++ '"'.toUInt8 :: ':'.toUInt8 :: (value ++ ','.toUInt8 :: text)))
    | .error e, _, _ => .error e
    | _, .error e, _ => .error e
    | _, _, .error e => .error e

/-- The elements of an array, with a comma after each but the last one. -/
def dumpElements : List (Json F) → Except JsonError (List UInt8)
  | [] => .ok []
  | [j] => dump j
  | j :: k :: a =>
    match dump j, dumpElements (k :: a) with
    | .ok text, .ok rest => .ok (text ++ ','.toUInt8 :: rest)
    | .error e, _ => .error e
    | _, .error e => .error e

end

end Typhoon.Json
