import Mathlib.Algebra.Ring.Nat
import Typhoon.Json.Value
import Typhoon.Library.Atoi

/-!
# The scanner

`scan` reads one token from the bytes that are left, and returns what is left after it. Strings are
scanned in passes of the loop of `scan_string` (`stringStep`), each of which adds the bytes of one
character. Numbers are scanned by the state machine of `scan_number`, with a function for each of its
labels. After a parse error nothing more is read, so the bytes left there are dropped.
-/

namespace Typhoon

/-- The tokens, with the values that the parser takes from the scanner. -/
inductive Token (F : Type*)
  | literalTrue
  | literalFalse
  | literalNull
  | valueString (s : List UInt8)
  | valueUnsigned (n : UInt64)
  | valueInteger (n : Int64)
  | valueFloat (x : F)
  | beginArray
  | beginObject
  | endArray
  | endObject
  | nameSeparator
  | valueSeparator
  | parseError (errorMessage : String)
  | endOfInput
  deriving DecidableEq

namespace Json

open CString (isdigit)

variable {F : Type*} [NumberFloat F]

/-! ## Strings -/

/-- The value of a hexadecimal digit. -/
def hexValue (c : UInt8) : Option ℕ :=
  if '0'.toUInt8 ≤ c ∧ c ≤ '9'.toUInt8 then some (c.toNat - 0x30)
  else if 'A'.toUInt8 ≤ c ∧ c ≤ 'F'.toUInt8 then some (c.toNat - 0x37)
  else if 'a'.toUInt8 ≤ c ∧ c ≤ 'f'.toUInt8 then some (c.toNat - 0x57)
  else none

/-- The loop of `get_codepoint` over its factors. -/
def codepointLoop : List ℕ → ℕ → List UInt8 → Option (ℕ × List UInt8)
  | [], codepoint, input => some (codepoint, input)
  | _ :: _, _, [] => none
  | factor :: factors, codepoint, c :: input =>
    match hexValue c with
    | some d => codepointLoop factors (codepoint + d <<< factor) input
    | none => none

/-- The code point of the four hexadecimal digits after a `\u`. -/
def getCodepoint (input : List UInt8) : Option (ℕ × List UInt8) := codepointLoop [12, 8, 4, 0] 0 input

/-- The bytes that are added for a code point. -/
def codepointBytes (codepoint : ℕ) : List UInt8 :=
  if codepoint < 0x80 then [UInt8.ofNat codepoint]
  else if codepoint ≤ 0x7FF then
    [UInt8.ofNat (0xC0 ||| codepoint >>> 6), UInt8.ofNat (0x80 ||| (codepoint &&& 0x3F))]
  else if codepoint ≤ 0xFFFF then
    [UInt8.ofNat (0xE0 ||| codepoint >>> 12), UInt8.ofNat (0x80 ||| (codepoint >>> 6 &&& 0x3F)),
      UInt8.ofNat (0x80 ||| (codepoint &&& 0x3F))]
  else
    [UInt8.ofNat (0xF0 ||| codepoint >>> 18), UInt8.ofNat (0x80 ||| (codepoint >>> 12 &&& 0x3F)),
      UInt8.ofNat (0x80 ||| (codepoint >>> 6 &&& 0x3F)), UInt8.ofNat (0x80 ||| (codepoint &&& 0x3F))]

/-- What one pass of the loop of `scan_string` does. -/
inductive StringStep
  | closingQuote (rest : List UInt8)
  | add (bytes rest : List UInt8)
  deriving DecidableEq

/-- The second half of a surrogate pair, after its first half `codepoint1`. -/
def scanLowSurrogate (codepoint1 : ℕ) : List UInt8 → Except String StringStep
  | c :: d :: input =>
    if c = '\\'.toUInt8 ∧ d = 'u'.toUInt8 then
      match getCodepoint input with
      | none => .error "invalid string: '\\u' must be followed by 4 hex digits"
      | some (codepoint2, rest) =>
        if 0xDC00 ≤ codepoint2 ∧ codepoint2 ≤ 0xDFFF then
          .ok (.add (codepointBytes (codepoint1 <<< 10 + codepoint2 - 0x35FDC00)) rest)
        else
          .error "invalid string: surrogate U+DC00..U+DFFF must be followed by U+DC00..U+DFFF"
    else .error "invalid string: surrogate U+DC00..U+DFFF must be followed by U+DC00..U+DFFF"
  | _ => .error "invalid string: surrogate U+DC00..U+DFFF must be followed by U+DC00..U+DFFF"

/-- What follows a `\u`. -/
def scanUnicode (input : List UInt8) : Except String StringStep :=
  match getCodepoint input with
  | none => .error "invalid string: '\\u' must be followed by 4 hex digits"
  | some (codepoint1, rest) =>
    if 0xD800 ≤ codepoint1 ∧ codepoint1 ≤ 0xDBFF then scanLowSurrogate codepoint1 rest
    else if 0xDC00 ≤ codepoint1 ∧ codepoint1 ≤ 0xDFFF then
      .error "invalid string: surrogate U+DC00..U+DFFF must follow U+D800..U+DBFF"
    else .ok (.add (codepointBytes codepoint1) rest)

/-- What follows a backslash. -/
def scanEscape : List UInt8 → Except String StringStep
  | [] => .error "invalid string: forbidden character after backslash"
  | c :: rest =>
    if c = '"'.toUInt8 then .ok (.add ['"'.toUInt8] rest)
    else if c = '\\'.toUInt8 then .ok (.add ['\\'.toUInt8] rest)
    else if c = '/'.toUInt8 then .ok (.add ['/'.toUInt8] rest)
    else if c = 'b'.toUInt8 then .ok (.add [0x08] rest)
    else if c = 'f'.toUInt8 then .ok (.add [0x0C] rest)
    else if c = 'n'.toUInt8 then .ok (.add [0x0A] rest)
    else if c = 'r'.toUInt8 then .ok (.add [0x0D] rest)
    else if c = 't'.toUInt8 then .ok (.add [0x09] rest)
    else if c = 'u'.toUInt8 then scanUnicode rest
    else .error "invalid string: forbidden character after backslash"

/-- `next_byte_in_range`: the bytes added so far, and then a byte in each of the ranges. -/
def nextByteInRange (added : List UInt8) :
    List (UInt8 × UInt8) → List UInt8 → Except String StringStep
  | [], rest => .ok (.add added rest)
  | _ :: _, [] => .error "invalid string: ill-formed UTF-8 byte"
  | (low, high) :: ranges, c :: rest =>
    if low ≤ c ∧ c ≤ high then nextByteInRange (added ++ [c]) ranges rest
    else .error "invalid string: ill-formed UTF-8 byte"

/-- The ranges that `scan_string` asks for after the first byte of a character of several bytes. -/
def byteRanges (c : UInt8) : Option (List (UInt8 × UInt8)) :=
  if 0xC2 ≤ c ∧ c ≤ 0xDF then some [(0x80, 0xBF)]
  else if c = 0xE0 then some [(0xA0, 0xBF), (0x80, 0xBF)]
  else if (0xE1 ≤ c ∧ c ≤ 0xEC) ∨ c = 0xEE ∨ c = 0xEF then some [(0x80, 0xBF), (0x80, 0xBF)]
  else if c = 0xED then some [(0x80, 0x9F), (0x80, 0xBF)]
  else if c = 0xF0 then some [(0x90, 0xBF), (0x80, 0xBF), (0x80, 0xBF)]
  else if 0xF1 ≤ c ∧ c ≤ 0xF3 then some [(0x80, 0xBF), (0x80, 0xBF), (0x80, 0xBF)]
  else if c = 0xF4 then some [(0x80, 0x8F), (0x80, 0xBF), (0x80, 0xBF)]
  else none

/-- One pass of the loop of `scan_string`. -/
def stringStep : List UInt8 → Except String StringStep
  | [] => .error "invalid string: missing closing quote"
  | c :: rest =>
    if c = '"'.toUInt8 then .ok (.closingQuote rest)
    else if c = '\\'.toUInt8 then scanEscape rest
    else if c ≤ 0x1F then .error "invalid string: control character must be escaped"
    else if c ≤ 0x7F then .ok (.add [c] rest)
    else
      match byteRanges c with
      | some ranges => nextByteInRange [c] ranges rest
      | none => .error "invalid string: ill-formed UTF-8 byte"

/-- What is left after a pass. -/
def StringStep.rest : StringStep → List UInt8
  | .closingQuote rest => rest
  | .add _ rest => rest

/-- A digit is read for each factor. -/
theorem codepointLoop_length {factors : List ℕ} {codepoint n : ℕ} {input rest : List UInt8}
    (h : codepointLoop factors codepoint input = some (n, rest)) :
    rest.length + factors.length = input.length := by
  induction factors generalizing codepoint input with
  | nil =>
    simp only [codepointLoop, Option.some.injEq, Prod.mk.injEq] at h
    rw [h.2, List.length_nil, Nat.add_zero]
  | cons factor factors ih =>
    cases input with
    | nil => simp [codepointLoop] at h
    | cons c input =>
      rw [codepointLoop] at h
      split at h
      · have := ih h
        simp only [List.length_cons]
        omega
      · cases h

/-- The second half of a surrogate pair takes bytes. -/
theorem scanLowSurrogate_length {codepoint1 : ℕ} {input : List UInt8} {r : StringStep}
    (h : scanLowSurrogate codepoint1 input = .ok r) : r.rest.length < input.length := by
  match input with
  | [] => simp [scanLowSurrogate] at h
  | [_] => simp [scanLowSurrogate] at h
  | c :: d :: input =>
    rw [scanLowSurrogate] at h
    split_ifs at h
    split at h
    · cases h
    · rename_i codepoint2 rest hcp
      split_ifs at h
      cases h
      have hlen := codepointLoop_length hcp
      simp only [StringStep.rest, List.length_cons, List.length_nil] at hlen ⊢
      omega

/-- A `\u` takes the bytes after it. -/
theorem scanUnicode_length {input : List UInt8} {r : StringStep} (h : scanUnicode input = .ok r) :
    r.rest.length < input.length := by
  rw [scanUnicode] at h
  split at h
  · cases h
  · rename_i codepoint1 rest hcp
    have hlen := codepointLoop_length hcp
    simp only [List.length_cons, List.length_nil] at hlen
    split_ifs at h
    · have := scanLowSurrogate_length h
      omega
    · cases h
      simp only [StringStep.rest]
      omega

/-- A backslash takes what follows it. -/
theorem scanEscape_length {input : List UInt8} {r : StringStep} (h : scanEscape input = .ok r) :
    r.rest.length < input.length := by
  cases input with
  | nil => cases h
  | cons c rest =>
    have hlt : rest.length < (c :: rest).length := Nat.lt_succ_self _
    rw [scanEscape] at h
    split_ifs at h
    all_goals first
      | exact (scanUnicode_length h).trans hlt
      | (cases h; exact hlt)

/-- What is left after the bytes in a list of ranges. -/
theorem nextByteInRange_length {added input : List UInt8} {ranges : List (UInt8 × UInt8)}
    {r : StringStep} (h : nextByteInRange added ranges input = .ok r) :
    r.rest.length ≤ input.length := by
  induction ranges generalizing added input with
  | nil =>
    simp only [nextByteInRange, Except.ok.injEq] at h
    rw [← h]
    exact le_rfl
  | cons range ranges ih =>
    cases input with
    | nil => cases h
    | cons c input =>
      rw [nextByteInRange] at h
      split_ifs at h
      exact (ih h).trans (Nat.le_succ _)

/-- A pass takes at least one byte. -/
theorem stringStep_length {input : List UInt8} {r : StringStep} (h : stringStep input = .ok r) :
    r.rest.length < input.length := by
  cases input with
  | nil => cases h
  | cons c rest =>
    have hlt : rest.length < (c :: rest).length := Nat.lt_succ_self _
    rw [stringStep] at h
    split_ifs at h
    · cases h
      exact hlt
    · exact (scanEscape_length h).trans hlt
    · cases h
      exact hlt
    · split at h
      · exact (nextByteInRange_length h).trans_lt hlt
      · cases h

/-- `scan_string`, after the opening quote and with `token_buffer` as it is so far. -/
def scanString (tokenBuffer input : List UInt8) : Except String (List UInt8 × List UInt8) :=
  match h : stringStep input with
  | .error errorMessage => .error errorMessage
  | .ok (.closingQuote rest) => .ok (tokenBuffer, rest)
  | .ok (.add bytes rest) =>
    have : rest.length < input.length := stringStep_length h
    scanString (tokenBuffer ++ bytes) rest
termination_by input.length

/-! ## Numbers -/

/-- The values of `number_type`. -/
inductive NumberType
  | unsigned
  | integer
  | float
  deriving DecidableEq

/-- What is scanned of a number: its type, its bytes and what is left. -/
abbrev ScannedNumber := NumberType × List UInt8 × List UInt8

/-- After a digit of the exponent. -/
def scanNumberAny2 (tokenBuffer : List UInt8) : List UInt8 → ScannedNumber
  | [] => (.float, tokenBuffer, [])
  | c :: rest =>
    if isdigit c then scanNumberAny2 (tokenBuffer ++ [c]) rest else (.float, tokenBuffer, c :: rest)

/-- After the sign of the exponent. -/
def scanNumberSign (tokenBuffer : List UInt8) : List UInt8 → Except String ScannedNumber
  | [] => .error "invalid number; expected digit after exponent sign"
  | c :: rest =>
    if isdigit c then .ok (scanNumberAny2 (tokenBuffer ++ [c]) rest)
    else .error "invalid number; expected digit after exponent sign"

/-- After the `e` of the exponent. -/
def scanNumberExponent (tokenBuffer : List UInt8) : List UInt8 → Except String ScannedNumber
  | [] => .error "invalid number; expected '+', '-', or digit after exponent"
  | c :: rest =>
    if c = '+'.toUInt8 ∨ c = '-'.toUInt8 then scanNumberSign (tokenBuffer ++ [c]) rest
    else if isdigit c then .ok (scanNumberAny2 (tokenBuffer ++ [c]) rest)
    else .error "invalid number; expected '+', '-', or digit after exponent"

/-- After a digit of the fraction. -/
def scanNumberDecimal2 (tokenBuffer : List UInt8) : List UInt8 → Except String ScannedNumber
  | [] => .ok (.float, tokenBuffer, [])
  | c :: rest =>
    if isdigit c then scanNumberDecimal2 (tokenBuffer ++ [c]) rest
    else if c = 'e'.toUInt8 ∨ c = 'E'.toUInt8 then scanNumberExponent (tokenBuffer ++ [c]) rest
    else .ok (.float, tokenBuffer, c :: rest)

/-- After the decimal point. -/
def scanNumberDecimal1 (tokenBuffer : List UInt8) : List UInt8 → Except String ScannedNumber
  | [] => .error "invalid number; expected digit after '.'"
  | c :: rest =>
    if isdigit c then scanNumberDecimal2 (tokenBuffer ++ [c]) rest
    else .error "invalid number; expected digit after '.'"

/-- After a digit of a number that does not start with 0. -/
def scanNumberAny1 (numberType : NumberType) (tokenBuffer : List UInt8) :
    List UInt8 → Except String ScannedNumber
  | [] => .ok (numberType, tokenBuffer, [])
  | c :: rest =>
    if isdigit c then scanNumberAny1 numberType (tokenBuffer ++ [c]) rest
    else if c = '.'.toUInt8 then scanNumberDecimal1 (tokenBuffer ++ [c]) rest
    else if c = 'e'.toUInt8 ∨ c = 'E'.toUInt8 then scanNumberExponent (tokenBuffer ++ [c]) rest
    else .ok (numberType, tokenBuffer, c :: rest)

/-- After a leading 0. -/
def scanNumberZero (numberType : NumberType) (tokenBuffer : List UInt8) :
    List UInt8 → Except String ScannedNumber
  | [] => .ok (numberType, tokenBuffer, [])
  | c :: rest =>
    if c = '.'.toUInt8 then scanNumberDecimal1 (tokenBuffer ++ [c]) rest
    else if c = 'e'.toUInt8 ∨ c = 'E'.toUInt8 then scanNumberExponent (tokenBuffer ++ [c]) rest
    else .ok (numberType, tokenBuffer, c :: rest)

/-- After a minus sign. -/
def scanNumberMinus (tokenBuffer : List UInt8) : List UInt8 → Except String ScannedNumber
  | [] => .error "invalid number; expected digit after '-'"
  | c :: rest =>
    if c = '0'.toUInt8 then scanNumberZero .integer (tokenBuffer ++ [c]) rest
    else if isdigit c then scanNumberAny1 .integer (tokenBuffer ++ [c]) rest
    else .error "invalid number; expected digit after '-'"

/-- `std::strtoull` on the bytes of a number, `none` where it sets `errno`. -/
def strtoull (bytes : List UInt8) : Option UInt64 :=
  if CString.digitsValue (bytes.takeWhile isdigit) < 2 ^ 64 then
    some (UInt64.ofNat (CString.digitsValue (bytes.takeWhile isdigit)))
  else none

/-- `std::strtoll` on the bytes of a number, `none` where it sets `errno`. -/
def strtoll (bytes : List UInt8) : Option Int64 :=
  if -2 ^ 63 ≤ CString.signedInt bytes ∧ CString.signedInt bytes < 2 ^ 63 then
    some (Int64.ofInt (CString.signedInt bytes))
  else none

/-- The token for the bytes of a number, which is a float where an integer conversion fails. -/
def numberToken (numberType : NumberType) (tokenBuffer : List UInt8) : Token F :=
  match numberType with
  | .unsigned =>
    match strtoull tokenBuffer with
    | some n => .valueUnsigned n
    | none => .valueFloat (NumberFloat.strtod tokenBuffer)
  | .integer =>
    match strtoll tokenBuffer with
    | some n => .valueInteger n
    | none => .valueFloat (NumberFloat.strtod tokenBuffer)
  | .float => .valueFloat (NumberFloat.strtod tokenBuffer)

/-- `scan_number`, after the first byte `current`. -/
def scanNumber (current : UInt8) (input : List UInt8) : Except String ScannedNumber :=
  if current = '-'.toUInt8 then scanNumberMinus [current] input
  else if current = '0'.toUInt8 then scanNumberZero .unsigned [current] input
  else scanNumberAny1 .unsigned [current] input

/-! ## Tokens -/

/-- `scan_literal`, after the first byte. -/
def scanLiteral (returnType : Token F) : List UInt8 → List UInt8 → Token F × List UInt8
  | [], input => (returnType, input)
  | _ :: _, [] => (.parseError "invalid literal", [])
  | t :: text, c :: input =>
    if c = t then scanLiteral returnType text input else (.parseError "invalid literal", [])

/-- The input without the white space at its start. -/
def skipWhitespace : List UInt8 → List UInt8
  | [] => []
  | c :: input =>
    if c = ' '.toUInt8 ∨ c = '\t'.toUInt8 ∨ c = '\n'.toUInt8 ∨ c = '\r'.toUInt8 then
      skipWhitespace input
    else c :: input

omit [NumberFloat F] in
/-- The structural characters. -/
def structuralToken (c : UInt8) : Option (Token F) :=
  if c = '['.toUInt8 then some .beginArray
  else if c = ']'.toUInt8 then some .endArray
  else if c = '\x7b'.toUInt8 then some .beginObject
  else if c = '\x7d'.toUInt8 then some .endObject
  else if c = ':'.toUInt8 then some .nameSeparator
  else if c = ','.toUInt8 then some .valueSeparator
  else none

/-- `scan`, from the first byte that is no white space. -/
def scanToken : List UInt8 → Token F × List UInt8
  | [] => (.endOfInput, [])
  | c :: rest =>
    match structuralToken c with
    | some token => (token, rest)
    | none =>
      if c = 't'.toUInt8 then scanLiteral .literalTrue (['r', 'u', 'e'].map Char.toUInt8) rest
      else if c = 'f'.toUInt8 then
        scanLiteral .literalFalse (['a', 'l', 's', 'e'].map Char.toUInt8) rest
      else if c = 'n'.toUInt8 then scanLiteral .literalNull (['u', 'l', 'l'].map Char.toUInt8) rest
      else if c = '"'.toUInt8 then
        match scanString [] rest with
        | .ok (s, rest) => (.valueString s, rest)
        | .error errorMessage => (.parseError errorMessage, [])
      else if c = '-'.toUInt8 ∨ isdigit c then
        match scanNumber c rest with
        | .ok (numberType, tokenBuffer, rest) => (numberToken numberType tokenBuffer, rest)
        | .error errorMessage => (.parseError errorMessage, [])
      else if c = 0 then (.endOfInput, rest)
      else (.parseError "invalid literal", [])

/-- `scan`: one token, and what is left. -/
def scan (input : List UInt8) : Token F × List UInt8 := scanToken (skipWhitespace input)

end Json

end Typhoon
