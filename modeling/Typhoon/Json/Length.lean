import Typhoon.Json.RoundTrip

/-!
# How long a written text is

A text that is parsed and dumped again may become longer: `9e9` is written as `9000000000.0`. It never becomes
longer than 25 times its length (`length_dump_le`). Between the two texts stands the `room` of a value, which bounds
what `dump` writes (`length_dump`), and which the text of the value has enough bytes for (`Derives.room_le`).
-/

namespace Typhoon

/-- What the length of the text of a number depends on. -/
class ShortNumberFloat (F : Type*) [NumberFloat F] : Prop where
  /-- The digits of a positive number are no more than the `max_digits10` of a `double`. -/
  digits_le : ∀ x : F, NumberFloat.isfinite x = true → NumberFloat.signbit x = false →
    NumberFloat.isZero x = false → (NumberFloat.grisu2 x).1.length ≤ 17

/-- The numbers of the small format have one digit. -/
instance : ShortNumberFloat Sample where
  digits_le _ _ _ _ := show 1 ≤ 17 by decide

namespace Json

/-! ## Numbers and strings that are written -/

/-- An integer below `10 ^ n` has at most `n` digits. -/
theorem length_digitsLoop {n : ℕ} {x : ℤ} (hx : x.natAbs < 10 ^ n) : (digitsLoop x).length ≤ n := by
  induction n generalizing x with
  | zero =>
    have hzero : x = 0 := Int.natAbs_eq_zero.1 (Nat.lt_one_iff.1 hx)
    rw [digitsLoop, if_pos hzero]
    exact le_rfl
  | succ n ih =>
    rw [digitsLoop]
    split_ifs with hzero
    · exact Nat.zero_le _
    · have hdiv : (x.tdiv 10).natAbs < 10 ^ n := by
        rw [Int.natAbs_tdiv]
        exact Nat.div_lt_of_lt_mul (hx.trans_eq (pow_succ' 10 n))
      exact Nat.succ_le_succ (ih hdiv)

/-- The text of an integer has at most 21 bytes. -/
theorem length_dumpInteger {x : ℤ} (hx : x.natAbs < 10 ^ 20) : (dumpInteger x).length ≤ 21 := by
  have hdigits := length_digitsLoop hx
  unfold dumpInteger
  split_ifs
  · decide
  · rw [List.length_reverse, List.length_append]
    exact Nat.add_le_add hdigits le_rfl
  · rw [List.length_reverse, List.append_nil]
    exact hdigits.trans (Nat.le_succ 20)

/-- The text of an exponent has at most four bytes. -/
theorem length_appendExponent (e : ℤ) : (appendExponent e).length ≤ 4 := by
  unfold appendExponent
  dsimp only
  split_ifs <;> simp

/-- Seventeen digits are laid out in at most 23 bytes. -/
theorem length_formatBuffer {buf : List UInt8} (hbuf : buf.length ≤ 17) (e : ℤ) :
    (formatBuffer buf e (-4) 15).length ≤ 23 := by
  have hexp := length_appendExponent (buf.length + e - 1)
  unfold formatBuffer
  dsimp only
  -- The layouts in the order of the source: `digits[000].0`, `dig.its`, `0.[000]digits` and `d.igitsE+123`.
  split_ifs with h₁ h₂ h₃ h₄
  · simp only [List.length_append, List.length_replicate, List.length_cons, List.length_nil]
    omega
  · simp only [List.length_append, List.length_take, List.length_drop, List.length_cons]
    omega
  · simp only [List.length_append, List.length_replicate, List.length_cons]
    omega
  · simp only [List.length_append, List.length_cons]
    omega
  · simp only [List.length_append, List.length_take, List.length_drop, List.length_cons]
    omega

section Float

variable {F : Type*} [NumberFloat F] [LawfulNumberFloat F] [ShortNumberFloat F]

omit [LawfulNumberFloat F] in
/-- The text of a number without a sign has at most 23 bytes. -/
theorem length_toCharsAbs {x : F} (hx : NumberFloat.isfinite x = true) (hsign : NumberFloat.signbit x = false) :
    (toCharsAbs x).length ≤ 23 := by
  unfold toCharsAbs
  split_ifs with hzero
  · decide
  · exact length_formatBuffer (ShortNumberFloat.digits_le x hx hsign (Bool.eq_false_iff.2 hzero)) _

/-- The text of a number has at most 24 bytes. -/
theorem length_dumpFloat (x : F) : (dumpFloat x).length ≤ 24 := by
  unfold dumpFloat
  split_ifs with hx
  · unfold toChars
    split_ifs with hsign
    · obtain ⟨hfinite, hpos⟩ := LawfulNumberFloat.neg x hx hsign
      exact Nat.succ_le_succ (length_toCharsAbs hfinite hpos)
    · exact (length_toCharsAbs hx (Bool.eq_false_iff.2 hsign)).trans (Nat.le_succ 23)
  · decide

end Float

/-- What a pass of `dump_escaped` has written. -/
theorem length_of_step {e e' : Escaping} {i : ℕ} {byte : UInt8} (h : e.step i byte = .ok e') :
    (e'.output ++ e'.stringBuffer).length ≤ (e.output ++ e.stringBuffer).length + 6 := by
  have hescape := length_escapeBytes_le (decode e.state e.codepoint byte).2 byte
  unfold Escaping.step at h
  dsimp only at h
  split_ifs at h <;> cases h <;> simp only [List.length_append, List.length_nil, List.length_singleton] <;> omega

/-- What the loop of `dump_escaped` has written. -/
theorem length_of_loop {e e' : Escaping} {i : ℕ} {s : List UInt8} (h : e.loop i s = .ok e') :
    (e'.output ++ e'.stringBuffer).length ≤ (e.output ++ e.stringBuffer).length + 6 * s.length := by
  induction s generalizing e i with
  | nil =>
    cases h
    exact le_rfl
  | cons byte s ih =>
    rw [Escaping.loop] at h
    cases hstep : e.step i byte with
    | error error =>
      rw [hstep] at h
      cases h
    | ok e₁ =>
      rw [hstep] at h
      have hloop := ih h
      have hpass := length_of_step hstep
      rw [List.length_cons]
      omega

/-- A string is written with at most six bytes for each of its own. -/
theorem length_dumpEscaped {s text : List UInt8} (h : dumpEscaped s = .ok text) : text.length ≤ 6 * s.length := by
  unfold dumpEscaped at h
  cases hloop : Escaping.start.loop 0 s with
  | error error =>
    rw [hloop] at h
    cases h
  | ok e =>
    rw [hloop] at h
    dsimp only at h
    split_ifs at h
    cases h
    exact (length_of_loop hloop).trans (Nat.zero_add _).le

/-! ## Strings that are read -/

/-- The bytes that a pass of `scan_string` adds. -/
def StringStep.added : StringStep → ℕ
  | .closingQuote _ => 0
  | .add bytes _ => bytes.length

/-- A code point has at most four bytes. -/
theorem length_codepointBytes (codepoint : ℕ) : (codepointBytes codepoint).length ≤ 4 := by
  unfold codepointBytes
  split_ifs <;> simp

/-- A surrogate pair adds no more bytes than it takes. -/
theorem added_of_scanLowSurrogate {codepoint1 : ℕ} {input : List UInt8} {r : StringStep}
    (h : scanLowSurrogate codepoint1 input = .ok r) : r.added + r.rest.length ≤ input.length := by
  match input with
  | [] => simp [scanLowSurrogate] at h
  | [_] => simp [scanLowSurrogate] at h
  | c :: d :: input =>
    rw [scanLowSurrogate] at h
    split_ifs at h
    split at h
    · cases h
    · rename_i codepoint2 rest hcp
      split_ifs at h
      cases h
      -- Four digits were read, and no more than four bytes are added.
      have hlen := codepointLoop_length hcp
      have hbytes := length_codepointBytes (codepoint1 <<< 10 + codepoint2 - 0x35FDC00)
      simp only [StringStep.added, StringStep.rest, List.length_cons, List.length_nil] at hlen ⊢
      omega

/-- A `\u` adds no more bytes than it takes. -/
theorem added_of_scanUnicode {input : List UInt8} {r : StringStep} (h : scanUnicode input = .ok r) :
    r.added + r.rest.length ≤ input.length := by
  rw [scanUnicode] at h
  split at h
  · cases h
  · rename_i codepoint1 rest hcp
    have hlen := codepointLoop_length hcp
    simp only [List.length_cons, List.length_nil] at hlen
    split_ifs at h
    · have := added_of_scanLowSurrogate h
      omega
    · cases h
      have hbytes := length_codepointBytes codepoint1
      simp only [StringStep.added, StringStep.rest]
      omega

/-- An escape sequence adds no more bytes than it takes. -/
theorem added_of_scanEscape {input : List UInt8} {r : StringStep} (h : scanEscape input = .ok r) :
    r.added + r.rest.length ≤ input.length := by
  cases input with
  | nil => cases h
  | cons c rest =>
    rw [scanEscape] at h
    split_ifs at h
    all_goals first
      | exact (added_of_scanUnicode h).trans (Nat.le_succ _)
      | (cases h; exact (Nat.add_comm _ _).le)

/-- A character of several bytes adds no more bytes than it takes. -/
theorem added_of_nextByteInRange {added input : List UInt8} {ranges : List (UInt8 × UInt8)} {r : StringStep}
    (h : nextByteInRange added ranges input = .ok r) :
    r.added + r.rest.length ≤ added.length + input.length := by
  induction ranges generalizing added input with
  | nil =>
    simp only [nextByteInRange, Except.ok.injEq] at h
    rw [← h]
    exact le_rfl
  | cons range ranges ih =>
    cases input with
    | nil => cases h
    | cons c input =>
      rw [nextByteInRange] at h
      split_ifs at h
      have hrest := ih h
      rw [List.length_append, List.length_singleton] at hrest
      rw [List.length_cons]
      omega

/-- A pass of `scan_string` adds no more than it takes. -/
theorem added_of_stringStep {input : List UInt8} {r : StringStep} (h : stringStep input = .ok r) :
    r.added + r.rest.length ≤ input.length := by
  cases input with
  | nil => cases h
  | cons c rest =>
    rw [stringStep] at h
    split_ifs at h
    · cases h
      exact (Nat.zero_add _).le.trans (Nat.le_succ _)
    · exact (added_of_scanEscape h).trans (Nat.le_succ _)
    · cases h
      exact (Nat.add_comm _ _).le
    · split at h
      · exact (added_of_nextByteInRange h).trans (Nat.add_comm _ _).le
      · cases h

/-- A string is no longer than its text. -/
theorem added_of_scanString {tokenBuffer input s rest : List UInt8}
    (h : scanString tokenBuffer input = .ok (s, rest)) :
    s.length + rest.length < tokenBuffer.length + input.length := by
  fun_induction scanString tokenBuffer input with
  | case1 => cases h
  | case2 tokenBuffer input rest' hstep =>
    cases h
    have hquote := stringStep_length hstep
    exact Nat.add_lt_add_left hquote _
  | case3 tokenBuffer input bytes rest' hstep hlt ih =>
    have hadded := added_of_stringStep hstep
    have hrest := ih h
    simp only [StringStep.added, StringStep.rest] at hadded
    rw [List.length_append] at hrest
    omega

variable {F : Type*} [NumberFloat F]

omit [NumberFloat F] in
/-- What is scanned of a literal is its token or an error. -/
theorem token_of_scanLiteral {returnType token : Token F} {text input rest : List UInt8}
    (h : scanLiteral returnType text input = (token, rest)) :
    token = returnType ∨ ∃ errorMessage, token = .parseError errorMessage := by
  induction text generalizing input with
  | nil =>
    cases h
    exact .inl rfl
  | cons t text ih =>
    cases input with
    | nil =>
      cases h
      exact .inr ⟨_, rfl⟩
    | cons c input =>
      rw [scanLiteral] at h
      split_ifs at h
      · exact ih h
      · cases h
        exact .inr ⟨_, rfl⟩

/-- What is scanned of a number is no string. -/
theorem numberToken_ne (numberType : NumberType) (bytes s : List UInt8) :
    numberToken (F := F) numberType bytes ≠ .valueString s := by
  unfold numberToken
  cases numberType <;> dsimp only <;> (try split) <;> simp

/-- The token of a string is longer than the string, by the quotes. -/
theorem length_of_scan_string {input s rest : List UInt8} (h : scan (F := F) input = (.valueString s, rest)) :
    s.length + rest.length + 2 ≤ input.length := by
  have hspace := length_skipWhitespace input
  rw [scan] at h
  cases hinput : skipWhitespace input with
  | nil =>
    rw [hinput] at h
    cases h
  | cons c input' =>
    rw [hinput] at h hspace
    rw [List.length_cons] at hspace
    rcases scanToken_cases h with ⟨hc, -⟩ | ⟨_, _, hl, hr⟩ | ⟨s', hs, hs'⟩ | ⟨numberType, bytes, -, -, hn⟩ |
      ⟨hend, -⟩ | ⟨_, herr, -⟩
    · unfold structuralToken at hc
      split_ifs at hc <;> cases hc
    · rcases token_of_scanLiteral hl with htoken | ⟨_, htoken⟩
      · rcases hr with rfl | rfl | rfl <;> cases htoken
      · cases htoken
    · cases hs'
      have hlen := added_of_scanString hs
      rw [List.length_nil, Nat.zero_add] at hlen
      omega
    · exact absurd hn.symm (numberToken_ne numberType bytes s)
    · cases hend
    · cases herr

/-! ## The room of a value -/

mutual

/-- The room that the text of a value may take. -/
def room : Json F → ℕ
  | .object o => 2 + roomMembers o
  | .array a => 2 + roomElements a
  | .string s => 2 + 6 * s.length
  | _ => 24

/-- The room of the elements of an array, with a comma after each. -/
def roomElements : List (Json F) → ℕ
  | [] => 0
  | j :: a => room j + 1 + roomElements a

/-- The room of the members of an object, with a comma after each. -/
def roomMembers : Members F → ℕ
  | [] => 0
  | (s, j) :: o => 6 * s.length + 3 + (room j + 1) + roomMembers o

end

mutual

/-- What is written fits into the room. -/
theorem length_dump [LawfulNumberFloat F] [ShortNumberFloat F] : ∀ (j : Json F) {text : List UInt8},
    dump j = .ok text → text.length ≤ room j
  | .null, _, h => by cases h; simp [room]
  | .boolean true, _, h => by cases h; simp [room]
  | .boolean false, _, h => by cases h; simp [room]
  | .numberInteger n, _, h => by
    cases h
    have hlow := Int64.le_toInt n
    have hhigh := Int64.toInt_lt n
    exact (length_dumpInteger (by omega)).trans (by simp [room])
  | .numberUnsigned n, _, h => by
    cases h
    have hhigh := UInt64.toNat_lt n
    exact (length_dumpInteger (by omega)).trans (by simp [room])
  | .numberFloat x, _, h => by
    cases h
    exact length_dumpFloat x
  | .string s, text, h => by
    rw [dump] at h
    cases hs : dumpEscaped s with
    | error e => rw [hs] at h; cases h
    | ok escaped =>
      rw [hs] at h
      cases h
      have hlen := length_dumpEscaped hs
      rw [room, List.length_cons, List.length_append, List.length_singleton]
      omega
  | .array [], _, h => by cases h; simp [room]
  | .array (j :: a), text, h => by
    rw [dump] at h
    cases hs : dumpElements (j :: a) with
    | error e => rw [hs] at h; cases h
    | ok elements =>
      rw [hs] at h
      cases h
      have hlen := length_dumpElements (j :: a) hs
      rw [room, List.length_cons, List.length_append, List.length_singleton]
      omega
  | .object [], _, h => by cases h; simp [room]
  | .object (m :: o), text, h => by
    rw [dump] at h
    cases hs : dumpMembers (m :: o) with
    | error e => rw [hs] at h; cases h
    | ok members =>
      rw [hs] at h
      cases h
      have hlen := length_dumpMembers (m :: o) hs
      rw [room, List.length_cons, List.length_append, List.length_singleton]
      omega

/-- The elements that are written fit into the room. -/
theorem length_dumpElements [LawfulNumberFloat F] [ShortNumberFloat F] : ∀ (a : List (Json F)) {text : List UInt8},
    dumpElements a = .ok text → text.length ≤ roomElements a
  | [], _, h => by cases h; exact Nat.zero_le _
  | [j], text, h => by
    have hlen := length_dump j h
    rw [roomElements, roomElements]
    omega
  | j :: k :: a, text, h => by
    rw [dumpElements] at h
    cases hj : dump j with
    | error e => rw [hj] at h; cases h
    | ok first =>
      cases hrest : dumpElements (k :: a) with
      | error e => rw [hj, hrest] at h; cases h
      | ok rest =>
        rw [hj, hrest] at h
        cases h
        have hfirst := length_dump j hj
        have hlen := length_dumpElements (k :: a) hrest
        rw [roomElements, List.length_append, List.length_cons]
        omega

/-- The members that are written fit into the room. -/
theorem length_dumpMembers [LawfulNumberFloat F] [ShortNumberFloat F] : ∀ (o : Members F) {text : List UInt8},
    dumpMembers o = .ok text → text.length ≤ roomMembers o
  | [], _, h => by cases h; exact Nat.zero_le _
  | [(s, j)], text, h => by
    rw [dumpMembers] at h
    cases hs : dumpEscaped s with
    | error e => rw [hs] at h; cases h
    | ok key =>
      cases hj : dump j with
      | error e => rw [hs, hj] at h; cases h
      | ok value =>
        rw [hs, hj] at h
        cases h
        have hkey := length_dumpEscaped hs
        have hvalue := length_dump j hj
        simp only [roomMembers, List.length_append, List.length_cons]
        omega
  | (s, j) :: m :: o, text, h => by
    rw [dumpMembers] at h
    cases hs : dumpEscaped s with
    | error e => rw [hs] at h; cases h
    | ok key =>
      cases hj : dump j with
      | error e => rw [hs, hj] at h; cases h
      | ok value =>
        cases hrest : dumpMembers (m :: o) with
        | error e => rw [hs, hj, hrest] at h; cases h
        | ok rest =>
          rw [hs, hj, hrest] at h
          cases h
          have hkey := length_dumpEscaped hs
          have hvalue := length_dump j hj
          have hlen := length_dumpMembers (m :: o) hrest
          rw [roomMembers]
          simp only [List.length_append, List.length_cons]
          omega

end

/-! ## The text of a value has enough bytes -/

omit [NumberFloat F] in
/-- The room of a member that is added, if there is none with its key. -/
theorem roomMembers_emplace (s : List UInt8) (j : Json F) (o : Members F) :
    roomMembers (SortedMap.emplace s j o) ≤ 6 * s.length + 3 + (room j + 1) + roomMembers o := by
  induction o with
  | nil => exact le_rfl
  | cons m o ih =>
    rw [SortedMap.emplace]
    split_ifs
    · exact le_rfl
    · exact Nat.le_add_left ..
    · rw [roomMembers, roomMembers]
      omega

omit [NumberFloat F] in
/-- The room of members that are added one after another. -/
theorem roomMembers_foldl (o m : Members F) :
    roomMembers (o.foldl (fun m e => SortedMap.emplace e.1 e.2 m) m) ≤ roomMembers m + roomMembers o := by
  induction o generalizing m with
  | nil => exact le_rfl
  | cons e o ih =>
    have hadd := roomMembers_emplace e.1 e.2 m
    have hrest := ih (SortedMap.emplace e.1 e.2 m)
    rw [List.foldl_cons, roomMembers]
    omega

omit [NumberFloat F] in
/-- The room of the members that are in the map. -/
theorem roomMembers_ofList (o : Members F) : roomMembers (SortedMap.ofList o) ≤ roomMembers o :=
  (roomMembers_foldl o []).trans (Nat.zero_add _).le

/-- The room of a phrase, with one byte after a value. -/
def Item.room : Item F → ℕ
  | .value j => Json.room j + 1
  | .elements a => roomElements a
  | .members o => roomMembers o

/-- A token takes a byte. -/
theorem length_of_proper {input mid : List UInt8} {token : Token F} (hscan : scan input = (token, mid))
    (hproper : Proper token) : mid.length + 1 ≤ input.length := (length_of_scan hscan).2 hproper

/-- The room of a phrase is at most 25 times the length of its text. -/
theorem Derives.room_le {ts : List (Token F)} {item : Item F} (h : Derives ts item) {input rest : List UInt8}
    (hlex : Lexes input ts rest) : item.room + 25 * rest.length ≤ 25 * input.length := by
  -- Each phrase is its tokens, and each token takes a byte, with which 25 bytes of room are paid.
  induction h generalizing input rest with
  | string s =>
    obtain ⟨mid, hscan, hnil⟩ := Lexes.of_cons hlex
    cases hnil
    have hlen := length_of_scan_string hscan
    simp only [Item.room, Json.room]
    omega
  | array _ ih =>
    obtain ⟨mid, hscan, hlex⟩ := Lexes.of_cons hlex
    obtain ⟨mid', hlex, hend⟩ := Lexes.of_append hlex
    obtain ⟨_, hend, hnil⟩ := Lexes.of_cons hend
    cases hnil
    have hbegin := length_of_proper hscan (by simp [Proper])
    have hclose := length_of_proper hend (by simp [Proper])
    have hroom := ih hlex
    simp only [Item.room, Json.room] at hroom ⊢
    omega
  | @object ts o _ ih =>
    obtain ⟨mid, hscan, hlex⟩ := Lexes.of_cons hlex
    obtain ⟨mid', hlex, hend⟩ := Lexes.of_append hlex
    obtain ⟨_, hend, hnil⟩ := Lexes.of_cons hend
    cases hnil
    have hbegin := length_of_proper hscan (by simp [Proper])
    have hclose := length_of_proper hend (by simp [Proper])
    have hroom := ih hlex
    -- Of the members with one key, only the first one is in the map.
    have hmap := roomMembers_ofList o
    simp only [Item.room, Json.room] at hroom ⊢
    omega
  | element _ ih =>
    have hroom := ih hlex
    simp only [Item.room, roomElements] at hroom ⊢
    omega
  | elements _ _ ih ih' =>
    obtain ⟨mid, hlex, hlex'⟩ := Lexes.of_append hlex
    obtain ⟨mid', hscan, hlex'⟩ := Lexes.of_cons hlex'
    have hroom := ih hlex
    have hroom' := ih' hlex'
    have hcomma := length_of_proper hscan (by simp [Proper])
    -- The byte after a value is the room of the comma.
    simp only [Item.room, roomElements] at hroom hroom' ⊢
    omega
  | member _ ih =>
    obtain ⟨mid, hkey, hlex⟩ := Lexes.of_cons hlex
    obtain ⟨mid', hscan, hlex⟩ := Lexes.of_cons hlex
    have hlen := length_of_scan_string hkey
    have hcolon := length_of_proper hscan (by simp [Proper])
    have hroom := ih hlex
    simp only [Item.room, roomMembers] at hroom ⊢
    omega
  | members _ _ ih ih' =>
    obtain ⟨mid, hkey, hlex⟩ := Lexes.of_cons hlex
    obtain ⟨mid₁, hscan, hlex⟩ := Lexes.of_cons hlex
    obtain ⟨mid₂, hlex, hlex'⟩ := Lexes.of_append hlex
    obtain ⟨mid₃, hscan', hlex'⟩ := Lexes.of_cons hlex'
    have hlen := length_of_scan_string hkey
    have hcolon := length_of_proper hscan (by simp [Proper])
    have hcomma := length_of_proper hscan' (by simp [Proper])
    have hroom := ih hlex
    have hroom' := ih' hlex'
    simp only [Item.room, roomMembers] at hroom hroom' ⊢
    omega
  | _ =>
    obtain ⟨mid, hscan, hlex⟩ := Lexes.of_cons hlex
    have hlen := length_of_proper hscan (by simp [Proper])
    have hrest := hlex.length_le
    simp only [Item.room, Json.room, roomElements, roomMembers]
    omega

/-- The room of a value that is parsed is at most 25 times its text. -/
theorem room_le_of_parse {message : List UInt8} {j : Json F} (h : parse message = .ok j) :
    room j ≤ 25 * message.length := by
  obtain ⟨ts, rest, -, hderives, hlex, -⟩ := text_of_parse h
  have hroom := hderives.room_le hlex
  have hmark := length_skipByteOrderMark message
  rw [Item.room] at hroom
  omega

/-- **What is parsed and dumped again is at most 25 times as long.** -/
theorem length_dump_le [LawfulNumberFloat F] [ShortNumberFloat F] {message text : List UInt8} {j : Json F}
    (hparse : parse message = .ok j) (hdump : dump j = .ok text) : text.length ≤ 25 * message.length :=
  (length_dump j hdump).trans (room_le_of_parse hparse)

/-- The bound holds of a text of the array of a half, with a space in it. -/
theorem length_dump_le_array :
    parse (F := Sample) (['[', ' ', '0', '.', '5', ']'].map Char.toUInt8) = .ok (.array [.numberFloat .half]) ∧
      dump (F := Sample) (.array [.numberFloat .half]) = .ok (['[', '0', '.', '5', ']'].map Char.toUInt8) ∧
      (['[', '0', '.', '5', ']'].map Char.toUInt8).length ≤
        25 * (['[', ' ', '0', '.', '5', ']'].map Char.toUInt8).length := by
  have hparse : parse (F := Sample) (['[', ' ', '0', '.', '5', ']'].map Char.toUInt8) =
      .ok (.array [.numberFloat .half]) := rfl
  have hdump : dump (F := Sample) (.array [.numberFloat .half]) =
      .ok (['[', '0', '.', '5', ']'].map Char.toUInt8) := rfl
  exact ⟨hparse, hdump, length_dump_le hparse hdump⟩

end Json

end Typhoon
