import Typhoon.Json.Lexer

/-!
# The parser

`parse` is `json::parse` on the bytes of a message: a recursive descent parser that asks the scanner for
one token after another, and throws at the first one that it did not expect. The recursion and the loops
of `parse_internal` go with a bound on their depth, which the length of the input gives (`parse`).
-/

namespace Typhoon

/-- What the library throws. -/
inductive JsonError
  /-- Error 101: what the last token was, and which token was expected. -/
  | syntaxError (unexpected : String) (expected : Option String)
  /-- Error 406: a number that is read as an infinity. -/
  | numberOverflow
  /-- Error 316: a byte of a string that cannot be there in UTF-8. -/
  | invalidUtf8 (index : ℕ) (byte : UInt8)
  /-- Error 316: a string that ends within a character. -/
  | incompleteUtf8 (lastByte : UInt8)
  /-- Error 302: a value of another type than the one that is asked for. -/
  | typeMustBe (type actual : String)
  /-- Error 305: a subscript on a value that is no object. -/
  | cannotUseOperator (actual : String)
  /-- The bound on the depth of the recursion is too small. -/
  | outOfFuel
  deriving DecidableEq

namespace Json

variable {F : Type*} [NumberFloat F]

omit [NumberFloat F] in
/-- `token_type_name`. -/
def tokenTypeName : Token F → String
  | .literalTrue => "true literal"
  | .literalFalse => "false literal"
  | .literalNull => "null literal"
  | .valueString _ => "string literal"
  | .valueUnsigned _ => "number literal"
  | .valueInteger _ => "number literal"
  | .valueFloat _ => "number literal"
  | .beginArray => "'['"
  | .beginObject => "'\x7b'"
  | .endArray => "']'"
  | .endObject => "'\x7d'"
  | .nameSeparator => "':'"
  | .valueSeparator => "','"
  | .parseError _ => "<parse error>"
  | .endOfInput => "end of input"

omit [NumberFloat F] in
/-- What `expect` throws after `lastToken` when another token was expected. -/
def unexpected (lastToken : Token F) (expected : Option String) : JsonError :=
  match lastToken with
  | .parseError errorMessage => .syntaxError errorMessage expected
  | lastToken => .syntaxError ("unexpected " ++ tokenTypeName lastToken) expected

/-- The elements of an object, one after another, as they come from the text. -/
abbrev Members (F : Type*) := List (List UInt8 × Json F)

mutual

/-- `parse_internal`, with the last token and what is left of the input. -/
def parseInternal : ℕ → Token F → List UInt8 → Except JsonError (Json F × List UInt8)
  | 0, _, _ => .error .outOfFuel
  | fuel + 1, lastToken, input =>
    match lastToken with
    | .beginObject =>
      match scan (F := F) input with
      | (.endObject, input) => .ok (.object [], input)
      | (lastToken, input) => parseMembers fuel [] lastToken input
    | .beginArray =>
      match scan (F := F) input with
      | (.endArray, input) => .ok (.array [], input)
      | (lastToken, input) => parseElements fuel [] lastToken input
    | .literalNull => .ok (.null, input)
    | .valueString s => .ok (.string s, input)
    | .literalTrue => .ok (.boolean true, input)
    | .literalFalse => .ok (.boolean false, input)
    | .valueUnsigned n => .ok (.numberUnsigned n, input)
    | .valueInteger n => .ok (.numberInteger n, input)
    | .valueFloat x =>
      if NumberFloat.isfinite x then .ok (.numberFloat x, input) else .error .numberOverflow
    | .parseError errorMessage => .error (.syntaxError errorMessage none)
    | lastToken => .error (unexpected lastToken (some "'[', '\x7b', or a literal"))

/-- The loop over the members of an object, with those read so far. -/
def parseMembers : ℕ → Members F → Token F → List UInt8 → Except JsonError (Json F × List UInt8)
  | 0, _, _, _ => .error .outOfFuel
  | fuel + 1, result, lastToken, input =>
    match lastToken with
    | .valueString key =>
      match scan (F := F) input with
      | (.nameSeparator, input) =>
        match scan (F := F) input with
        | (lastToken, input) =>
          match parseInternal fuel lastToken input with
          | .error e => .error e
          | .ok (value, input) =>
            match scan (F := F) input with
            | (.valueSeparator, input) =>
              match scan (F := F) input with
              | (lastToken, input) =>
                parseMembers fuel (SortedMap.emplace key value result) lastToken input
            | (.endObject, input) => .ok (.object (SortedMap.emplace key value result), input)
            | (lastToken, _) => .error (unexpected lastToken (some "'\x7d'"))
      | (lastToken, _) => .error (unexpected lastToken (some "':'"))
    | lastToken => .error (unexpected lastToken (some "string literal"))

/-- The loop over the elements of an array, with those read so far. -/
def parseElements : ℕ → List (Json F) → Token F → List UInt8 →
    Except JsonError (Json F × List UInt8)
  | 0, _, _, _ => .error .outOfFuel
  | fuel + 1, result, lastToken, input =>
    match parseInternal fuel lastToken input with
    | .error e => .error e
    | .ok (value, input) =>
      match scan (F := F) input with
      | (.valueSeparator, input) =>
        match scan (F := F) input with
        | (lastToken, input) => parseElements fuel (result ++ [value]) lastToken input
      | (.endArray, input) => .ok (.array (result ++ [value]), input)
      | (lastToken, _) => .error (unexpected lastToken (some "']'"))

end

/-- The input adapter skips a byte order mark. -/
def skipByteOrderMark : List UInt8 → List UInt8
  | 0xEF :: 0xBB :: 0xBF :: input => input
  | input => input

/-- `parse` of the parser: one value, and then the end of the input. -/
def parse (message : List UInt8) : Except JsonError (Json F) :=
  match scan (skipByteOrderMark message) with
  | (lastToken, input) =>
    match parseInternal (2 * message.length + 2) lastToken input with
    | .error e => .error e
    | .ok (result, input) =>
      match scan (F := F) input with
      | (.endOfInput, _) => .ok result
      | (lastToken, _) => .error (unexpected lastToken (some "end of input"))

end Json

end Typhoon
