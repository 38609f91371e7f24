import Typhoon.Json.Strings
import Typhoon.Json.Written

/-!
# Tokens

What the scanner makes of the text of each token, and what it promises of every token: strings are valid
UTF-8 (`tokenValid_of_scan`), and a token takes bytes from the input (`length_of_scan`). `Lexes` is a list of tokens
scanned one after another.
-/

namespace Typhoon

namespace Json

open CString (isdigit)

variable {F : Type*} [NumberFloat F]

/-! ## The text of a token -/

/-- Nothing is skipped at a byte that is no white space. -/
theorem skipWhitespace_cons {c : UInt8} (hc : ¬ (c = ' '.toUInt8 ∨ c = '\t'.toUInt8 ∨
    c = '\n'.toUInt8 ∨ c = '\r'.toUInt8)) (input : List UInt8) :
    skipWhitespace (c :: input) = c :: input := by
  rw [skipWhitespace, if_neg hc]

/-- The text of a number is scanned as its token. -/
theorem scan_number {rest : List UInt8} (hrest : Stops rest) (t : NumberText) :
    scan (F := F) (t.bytes ++ rest) = (numberToken t.type t.bytes, rest) := by
  obtain ⟨c, tl, hbytes, hc, hscan⟩ := scanNumber_bytes hrest t
  have hne : ∀ d : UInt8, isdigit d = false → d ≠ '-'.toUInt8 → c ≠ d := by
    intro d hd hminus
    rcases hc with rfl | hc
    · exact hminus.symm
    · exact ne_of_isdigit hc hd
  have hspace : ¬ (c = ' '.toUInt8 ∨ c = '\t'.toUInt8 ∨ c = '\n'.toUInt8 ∨ c = '\r'.toUInt8) := by
    rintro (h | h | h | h) <;> exact hne _ (by decide) (by decide) h
  have hstructural : structuralToken (F := F) c = none := by
    rw [structuralToken, if_neg (hne _ (by decide) (by decide)), if_neg (hne _ (by decide) (by decide)),
      if_neg (hne _ (by decide) (by decide)), if_neg (hne _ (by decide) (by decide)),
      if_neg (hne _ (by decide) (by decide)), if_neg (hne _ (by decide) (by decide))]
  rw [hbytes, List.cons_append, scan, skipWhitespace_cons hspace, scanToken, hstructural,
    if_neg (hne _ (by decide) (by decide)), if_neg (hne _ (by decide) (by decide)),
    if_neg (hne _ (by decide) (by decide)), if_neg (hne _ (by decide) (by decide)), if_pos hc, hscan,
    ← hbytes]

/-- The text of characters in quotes is scanned as their encoding. -/
theorem scan_string (cs : List Char) (rest : List UInt8) :
    scan (F := F) ('"'.toUInt8 :: (cs.flatMap escapeChar ++ '"'.toUInt8 :: rest)) =
      (.valueString (Utf8.encode cs), rest) := by
  have hstring := scanString_escaped cs [] rest
  have hstructural : structuralToken (F := F) '"'.toUInt8 = none := rfl
  rw [scan, skipWhitespace_cons (by decide), scanToken, hstructural, if_neg (by decide),
    if_neg (by decide), if_neg (by decide), if_pos rfl, hstring]
  rfl

/-! ## Every token -/

omit [NumberFloat F] in
/-- A literal takes its bytes, or is an error. -/
theorem length_of_scanLiteral {returnType : Token F} {text input rest : List UInt8} {token : Token F}
    (h : scanLiteral returnType text input = (token, rest)) : rest.length ≤ input.length := by
  induction text generalizing input with
  | nil =>
    cases h
    exact le_rfl
  | cons t text ih =>
    cases input with
    | nil =>
      cases h
      exact le_rfl
    | cons c input =>
      rw [scanLiteral] at h
      split_ifs at h
      · exact (ih h).trans (Nat.le_succ _)
      · cases h
        exact Nat.zero_le _

/-- White space takes nothing else. -/
theorem length_skipWhitespace (input : List UInt8) : (skipWhitespace input).length ≤ input.length := by
  fun_induction skipWhitespace input with
  | case1 => exact le_rfl
  | case2 c input _ ih => exact ih.trans (Nat.le_succ _)
  | case3 => exact le_rfl

/-- The text of a number is not empty. -/
theorem NumberText.bytes_ne_nil (t : NumberText) : t.bytes ≠ [] := by
  obtain ⟨minus, int, frac, exp, hint, -, -⟩ := t
  cases hint <;> simp [NumberText.bytes]

/-- A scanned number leaves fewer bytes. -/
theorem length_of_scanNumber {c : UInt8} (hc : c = '-'.toUInt8 ∨ isdigit c = true)
    {input rest bytes : List UInt8} {numberType : NumberType}
    (h : scanNumber c input = .ok (numberType, bytes, rest)) : rest.length < (c :: input).length := by
  obtain ⟨t, hsplit, -, -⟩ := exists_numberText hc h
  rw [hsplit, List.length_append]
  have := List.length_pos_of_ne_nil t.bytes_ne_nil
  omega

/-- A token is structural, a literal, a string, a number, the end of the input, or an error that takes the
rest. -/
theorem scanToken_cases {c : UInt8} {input rest : List UInt8} {token : Token F}
    (h : scanToken (c :: input) = (token, rest)) :
    (structuralToken c = some token ∧ rest = input) ∨
    (∃ returnType text, scanLiteral returnType text input = (token, rest) ∧
      (returnType = .literalTrue ∨ returnType = .literalFalse ∨ returnType = .literalNull)) ∨
    (∃ s, scanString [] input = .ok (s, rest) ∧ token = .valueString s) ∨
    (∃ numberType bytes, (c = '-'.toUInt8 ∨ isdigit c = true) ∧
      scanNumber c input = .ok (numberType, bytes, rest) ∧ token = numberToken numberType bytes) ∨
    (token = .endOfInput ∧ rest = input) ∨ ∃ errorMessage, token = .parseError errorMessage ∧ rest = [] := by
  rw [scanToken] at h
  split at h
  · rename_i hstructural
    cases h
    exact .inl ⟨hstructural, rfl⟩
  · split at h
    · exact .inr (.inl ⟨_, _, h, .inl rfl⟩)
    · split at h
      · exact .inr (.inl ⟨_, _, h, .inr (.inl rfl)⟩)
      · split at h
        · exact .inr (.inl ⟨_, _, h, .inr (.inr rfl)⟩)
        · split at h
          · split at h
            · rename_i hs
              cases h
              exact .inr (.inr (.inl ⟨_, hs, rfl⟩))
            · cases h
              exact .inr (.inr (.inr (.inr (.inr ⟨_, rfl, rfl⟩))))
          · split at h
            · rename_i hc
              split at h
              · rename_i hn
                cases h
                exact .inr (.inr (.inr (.inl ⟨_, _, hc, hn, rfl⟩)))
              · cases h
                exact .inr (.inr (.inr (.inr (.inr ⟨_, rfl, rfl⟩))))
            · split at h
              · cases h
                exact .inr (.inr (.inr (.inr (.inl ⟨rfl, rfl⟩))))
              · cases h
                exact .inr (.inr (.inr (.inr (.inr ⟨_, rfl, rfl⟩))))

omit [NumberFloat F] in
/-- The tokens that take bytes from the input. -/
def Proper (token : Token F) : Prop :=
  token ≠ .endOfInput ∧ ∀ errorMessage, token ≠ .parseError errorMessage

/-- What is left after a token, and after a proper one. -/
theorem length_of_scan {input rest : List UInt8} {token : Token F} (h : scan input = (token, rest)) :
    rest.length ≤ input.length ∧ (Proper token → rest.length < input.length) := by
  have hspace := length_skipWhitespace input
  rw [scan] at h
  cases hinput : skipWhitespace input with
  | nil =>
    rw [hinput] at h
    cases h
    exact ⟨Nat.zero_le _, fun hproper => absurd rfl hproper.1⟩
  | cons c input' =>
    rw [hinput] at h hspace
    rw [List.length_cons] at hspace
    have hlt : rest.length ≤ input'.length →
        rest.length ≤ input.length ∧ (Proper token → rest.length < input.length) :=
      fun hle => ⟨by omega, fun _ => by omega⟩
    rcases scanToken_cases h with ⟨-, rfl⟩ | ⟨_, _, hl, -⟩ | ⟨s, hs, -⟩ | ⟨_, _, hc, hn, -⟩ | ⟨-, rfl⟩ |
      ⟨_, rfl, rfl⟩
    · exact hlt le_rfl
    · exact hlt (length_of_scanLiteral hl)
    · exact hlt (length_of_scanString hs).le
    · exact hlt (Nat.le_of_lt_succ (length_of_scanNumber hc hn))
    · exact hlt le_rfl
    · exact ⟨Nat.zero_le _, fun hproper => absurd rfl (hproper.2 _)⟩

/-- A token with a string that is valid UTF-8, if it has one. -/
def TokenValid : Token F → Prop
  | .valueString s => Utf8.Valid s
  | _ => True

omit [NumberFloat F] in
/-- What is scanned of a literal is valid where its token is. -/
theorem tokenValid_of_scanLiteral {returnType token : Token F} {text input rest : List UInt8}
    (h : scanLiteral returnType text input = (token, rest)) (hvalid : TokenValid returnType) :
    TokenValid token := by
  induction text generalizing input with
  | nil =>
    cases h
    exact hvalid
  | cons t text ih =>
    cases input with
    | nil =>
      cases h
      trivial
    | cons c input =>
      rw [scanLiteral] at h
      split_ifs at h
      · exact ih h
      · cases h
        trivial

/-- What is scanned of a number is valid. -/
theorem tokenValid_numberToken (numberType : NumberType) (bytes : List UInt8) :
    TokenValid (numberToken (F := F) numberType bytes) := by
  unfold numberToken
  cases numberType <;> dsimp only <;> (try split) <;> trivial

/-- Every string that is scanned is valid UTF-8. -/
theorem tokenValid_of_scan {input rest : List UInt8} {token : Token F}
    (h : scan input = (token, rest)) : TokenValid token := by
  rw [scan] at h
  cases hinput : skipWhitespace input with
  | nil =>
    rw [hinput] at h
    cases h
    trivial
  | cons c input' =>
    rw [hinput] at h
    rcases scanToken_cases h with ⟨hs, -⟩ | ⟨_, _, hl, hl'⟩ | ⟨s, hs, rfl⟩ | ⟨_, _, -, -, rfl⟩ |
      ⟨rfl, -⟩ | ⟨_, rfl, -⟩
    · unfold structuralToken at hs
      split_ifs at hs <;> cases hs <;> trivial
    · refine tokenValid_of_scanLiteral hl ?_
      rcases hl' with rfl | rfl | rfl <;> trivial
    · exact valid_of_scanString Utf8.valid_nil hs
    · exact tokenValid_numberToken _ _
    · trivial
    · trivial

/-! ## Lists of tokens -/

/-- The tokens are scanned one after another, from an input to what is left of it. -/
inductive Lexes : List UInt8 → List (Token F) → List UInt8 → Prop
  | nil (input : List UInt8) : Lexes input [] input
  | cons {input rest end_ : List UInt8} {token : Token F} {tokens : List (Token F)}
      (hscan : scan input = (token, rest)) (htokens : Lexes rest tokens end_) :
      Lexes input (token :: tokens) end_

/-- Tokens that are scanned one list after the other are scanned. -/
theorem Lexes.append {input rest end_ : List UInt8} {tokens tokens' : List (Token F)}
    (h : Lexes input tokens rest) (h' : Lexes rest tokens' end_) :
    Lexes input (tokens ++ tokens') end_ := by
  induction h with
  | nil => exact h'
  | cons hscan _ ih => exact .cons hscan (ih h')

/-- The first of some tokens is scanned first, and then the rest. -/
theorem Lexes.of_cons {input rest : List UInt8} {t : Token F} {ts : List (Token F)}
    (h : Lexes input (t :: ts) rest) : ∃ mid, scan input = (t, mid) ∧ Lexes mid ts rest := by
  cases h with
  | cons hscan htokens => exact ⟨_, hscan, htokens⟩

/-- The first of two lists of tokens is scanned first, and then the other. -/
theorem Lexes.of_append {ts ts' : List (Token F)} {input rest : List UInt8}
    (h : Lexes input (ts ++ ts') rest) : ∃ mid, Lexes input ts mid ∧ Lexes mid ts' rest := by
  induction ts generalizing input with
  | nil => exact ⟨input, .nil _, h⟩
  | cons t ts ih =>
    obtain ⟨next, hscan, htokens⟩ := Lexes.of_cons h
    obtain ⟨mid, hmid, hrest⟩ := ih htokens
    exact ⟨mid, .cons hscan hmid, hrest⟩

/-- Tokens that are scanned leave no more bytes than there were. -/
theorem Lexes.length_le {input rest : List UInt8} {ts : List (Token F)} (h : Lexes input ts rest) :
    rest.length ≤ input.length := by
  induction h with
  | nil => exact le_rfl
  | cons hscan _ ih => exact ih.trans (length_of_scan hscan).1

/-- Every string among the tokens is valid UTF-8. -/
theorem Lexes.tokenValid {input rest : List UInt8} {ts : List (Token F)} (h : Lexes input ts rest) :
    ∀ t ∈ ts, TokenValid t := by
  induction h with
  | nil => exact fun _ ht => by cases ht
  | cons hscan _ ih => exact List.forall_mem_cons.2 ⟨tokenValid_of_scan hscan, ih⟩

end Json

end Typhoon
