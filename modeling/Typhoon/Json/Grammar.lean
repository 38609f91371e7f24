import Typhoon.Json.Tokens

/-!
# The grammar

`Derives` is the grammar of JSON over tokens, with the value that each phrase stands for: an object is the
map of its members, of which the first one with a key counts. The parser reads exactly what is derived
(`parse_eq_ok_iff`): its recursion never runs out of the bound that `parse` sets, and every value it returns
is well formed (`wellFormed_of_parse`).
-/

namespace Typhoon

namespace Json

variable {F : Type*} [NumberFloat F]

/-- What a phrase of the grammar stands for. -/
inductive Item (F : Type*)
  | value (j : Json F)
  | elements (a : List (Json F))
  | members (o : Members F)

/-- The phrases of the grammar. -/
inductive Derives : List (Token F) → Item F → Prop
  | null : Derives [.literalNull] (.value .null)
  | literalTrue : Derives [.literalTrue] (.value (.boolean true))
  | literalFalse : Derives [.literalFalse] (.value (.boolean false))
  | string (s : List UInt8) : Derives [.valueString s] (.value (.string s))
  | unsigned (n : UInt64) : Derives [.valueUnsigned n] (.value (.numberUnsigned n))
  | integer (n : Int64) : Derives [.valueInteger n] (.value (.numberInteger n))
  | float {x : F} (hx : NumberFloat.isfinite x = true) :
      Derives [.valueFloat x] (.value (.numberFloat x))
  | emptyArray : Derives [.beginArray, .endArray] (.value (.array []))
  | array {ts : List (Token F)} {a : List (Json F)} (h : Derives ts (.elements a)) :
      Derives (.beginArray :: (ts ++ [.endArray])) (.value (.array a))
  | emptyObject : Derives [.beginObject, .endObject] (.value (.object []))
  | object {ts : List (Token F)} {o : Members F} (h : Derives ts (.members o)) :
      Derives (.beginObject :: (ts ++ [.endObject])) (.value (.object (SortedMap.ofList o)))
  | element {ts : List (Token F)} {j : Json F} (h : Derives ts (.value j)) :
      Derives ts (.elements [j])
  | elements {ts ts' : List (Token F)} {j : Json F} {a : List (Json F)} (h : Derives ts (.value j))
      (h' : Derives ts' (.elements a)) : Derives (ts ++ .valueSeparator :: ts') (.elements (j :: a))
  | member {key : List UInt8} {ts : List (Token F)} {j : Json F} (h : Derives ts (.value j)) :
      Derives (.valueString key :: .nameSeparator :: ts) (.members [(key, j)])
  | members {key : List UInt8} {ts ts' : List (Token F)} {j : Json F} {o : Members F}
      (h : Derives ts (.value j)) (h' : Derives ts' (.members o)) :
      Derives (.valueString key :: .nameSeparator :: (ts ++ .valueSeparator :: ts'))
        (.members ((key, j) :: o))

/-! ## The parser reads what is derived -/

/-- What the parser does with a phrase that goes from an input to `rest`, given enough of a bound: it
returns the value, or goes on to the bracket after the elements or members. -/
def Parses (input rest : List UInt8) : Item F → Prop
  | .value j => ∀ fuel token input', scan input = (token, input') → 2 * input'.length + 1 ≤ fuel →
      parseInternal fuel token input' = .ok (j, rest)
  | .elements a => ∀ fuel result token input' rest', scan input = (token, input') →
      2 * input'.length + 2 ≤ fuel → scan (F := F) rest = (.endArray, rest') →
      parseElements fuel result token input' = .ok (.array (result ++ a), rest')
  | .members o => ∀ fuel result token input' rest', scan input = (token, input') →
      2 * input'.length + 2 ≤ fuel → scan (F := F) rest = (.endObject, rest') →
      parseMembers fuel result token input' =
        .ok (.object (o.foldl (fun m e => SortedMap.emplace e.1 e.2 m) result), rest')

/-- A phrase starts with a proper token, which is no closing bracket. -/
theorem Derives.exists_cons {ts : List (Token F)} {item : Item F} (h : Derives ts item) :
    ∃ t ts', ts = t :: ts' ∧ Proper t ∧ t ≠ .endArray ∧ t ≠ .endObject := by
  induction h with
  | element _ ih => exact ih
  | elements _ _ ih _ =>
    obtain ⟨t, ts', rfl, ht⟩ := ih
    exact ⟨t, _, rfl, ht⟩
  | _ => exact ⟨_, _, rfl, by simp [Proper]⟩

/-- What follows a `[` that no `]` comes after. -/
theorem parseInternal_beginArray {fuel : ℕ} {input input' : List UInt8} {token : Token F}
    (h : scan input = (token, input')) (hne : token ≠ .endArray) :
    parseInternal (fuel + 1) .beginArray input = parseElements fuel [] token input' := by
  rw [parseInternal, h]
  cases token <;> first | rfl | exact absurd rfl hne

/-- What follows a `{` that no `}` comes after. -/
theorem parseInternal_beginObject {fuel : ℕ} {input input' : List UInt8} {token : Token F}
    (h : scan input = (token, input')) (hne : token ≠ .endObject) :
    parseInternal (fuel + 1) .beginObject input = parseMembers fuel [] token input' := by
  rw [parseInternal, h]
  cases token <;> first | rfl | exact absurd rfl hne

/-- Whatever is derived is read. -/
theorem Derives.parses {ts : List (Token F)} {item : Item F} (h : Derives ts item)
    {input rest : List UInt8} (hlex : Lexes input ts rest) : Parses input rest item := by
  induction h generalizing input rest with
  | array h ih =>
    intro fuel token input' hscan hfuel
    obtain ⟨mid, hscan', hlex⟩ := Lexes.of_cons hlex
    rw [hscan] at hscan'
    cases hscan'
    obtain ⟨mid, hlex, hend⟩ := Lexes.of_append hlex
    obtain ⟨_, hend, hnil⟩ := Lexes.of_cons hend
    cases hnil
    obtain ⟨t, ts', rfl, hproper, hne, -⟩ := h.exists_cons
    obtain ⟨next, hnext, -⟩ := Lexes.of_cons hlex
    have hlen := (length_of_scan hnext).2 hproper
    obtain ⟨fuel, rfl⟩ : ∃ k, fuel = k + 1 := ⟨fuel - 1, by omega⟩
    rw [parseInternal_beginArray hnext hne]
    exact ih hlex fuel [] t next rest hnext (by omega) hend
  | object h ih =>
    intro fuel token input' hscan hfuel
    obtain ⟨mid, hscan', hlex⟩ := Lexes.of_cons hlex
    rw [hscan] at hscan'
    cases hscan'
    obtain ⟨mid, hlex, hend⟩ := Lexes.of_append hlex
    obtain ⟨_, hend, hnil⟩ := Lexes.of_cons hend
    cases hnil
    obtain ⟨t, ts', rfl, hproper, -, hne⟩ := h.exists_cons
    obtain ⟨next, hnext, -⟩ := Lexes.of_cons hlex
    have hlen := (length_of_scan hnext).2 hproper
    obtain ⟨fuel, rfl⟩ : ∃ k, fuel = k + 1 := ⟨fuel - 1, by omega⟩
    rw [parseInternal_beginObject hnext hne]
    exact ih hlex fuel [] t next rest hnext (by omega) hend
  | emptyArray =>
    intro fuel token input' hscan hfuel
    obtain ⟨mid, hscan', hlex⟩ := Lexes.of_cons hlex
    rw [hscan] at hscan'
    cases hscan'
    obtain ⟨_, hend, hnil⟩ := Lexes.of_cons hlex
    cases hnil
    obtain ⟨fuel, rfl⟩ : ∃ k, fuel = k + 1 := ⟨fuel - 1, by omega⟩
    rw [parseInternal, hend]
  | emptyObject =>
    intro fuel token input' hscan hfuel
    obtain ⟨mid, hscan', hlex⟩ := Lexes.of_cons hlex
    rw [hscan] at hscan'
    cases hscan'
    obtain ⟨_, hend, hnil⟩ := Lexes.of_cons hlex
    cases hnil
    obtain ⟨fuel, rfl⟩ : ∃ k, fuel = k + 1 := ⟨fuel - 1, by omega⟩
    rw [parseInternal, hend]
  | element h ih =>
    intro fuel result token input' rest' hscan hfuel hend
    obtain ⟨fuel, rfl⟩ : ∃ k, fuel = k + 1 := ⟨fuel - 1, by omega⟩
    rw [parseElements, ih hlex fuel token input' hscan (by omega)]
    dsimp only
    rw [hend]
  | elements h h' ih ih' =>
    intro fuel result token input' rest' hscan hfuel hend
    obtain ⟨mid, hvalue, hlex'⟩ := Lexes.of_append hlex
    obtain ⟨next, hcomma, hlex'⟩ := Lexes.of_cons hlex'
    -- The input gets shorter with every token up to the next element.
    obtain ⟨t, ts, rfl, -⟩ := h.exists_cons
    obtain ⟨mid', hscan', hmid⟩ := Lexes.of_cons hvalue
    rw [hscan] at hscan'
    cases hscan'
    have hlen₁ := hmid.length_le
    have hlen₂ := (length_of_scan hcomma).2 (by simp [Proper])
    obtain ⟨t', ts', rfl, -⟩ := h'.exists_cons
    obtain ⟨last, hlast, -⟩ := Lexes.of_cons hlex'
    have hlen₃ := (length_of_scan hlast).1
    obtain ⟨fuel, rfl⟩ : ∃ k, fuel = k + 1 := ⟨fuel - 1, by omega⟩
    rw [parseElements, ih hvalue fuel _ _ hscan (by omega)]
    dsimp only
    rw [hcomma]
    dsimp only
    rw [hlast, ih' hlex' fuel _ _ _ rest' hlast (by omega) hend, List.append_assoc]
    rfl
  | member h ih =>
    intro fuel result token input' rest' hscan hfuel hend
    obtain ⟨mid, hscan', hlex⟩ := Lexes.of_cons hlex
    rw [hscan] at hscan'
    cases hscan'
    obtain ⟨next, hcolon, hlex⟩ := Lexes.of_cons hlex
    have hlen := (length_of_scan hcolon).2 (by simp [Proper])
    obtain ⟨t, ts, rfl, -⟩ := h.exists_cons
    obtain ⟨first, hfirst, -⟩ := Lexes.of_cons hlex
    have hlen' := (length_of_scan hfirst).1
    obtain ⟨fuel, rfl⟩ : ∃ k, fuel = k + 1 := ⟨fuel - 1, by omega⟩
    rw [parseMembers]
    dsimp only
    rw [hcolon]
    dsimp only
    rw [hfirst, ih hlex fuel _ _ hfirst (by omega)]
    dsimp only
    rw [hend]
    rfl
  | members h h' ih ih' =>
    intro fuel result token input' rest' hscan hfuel hend
    obtain ⟨mid, hscan', hlex⟩ := Lexes.of_cons hlex
    rw [hscan] at hscan'
    cases hscan'
    obtain ⟨next, hcolon, hlex⟩ := Lexes.of_cons hlex
    have hlen₁ := (length_of_scan hcolon).2 (by simp [Proper])
    obtain ⟨mid, hvalue, hlex'⟩ := Lexes.of_append hlex
    have hlen₂ := hvalue.length_le
    obtain ⟨after, hcomma, hlex'⟩ := Lexes.of_cons hlex'
    have hlen₃ := (length_of_scan hcomma).2 (by simp [Proper])
    obtain ⟨t, ts, rfl, -⟩ := h.exists_cons
    obtain ⟨first, hfirst, -⟩ := Lexes.of_cons hvalue
    have hlen₄ := (length_of_scan hfirst).1
    obtain ⟨t', ts', rfl, -⟩ := h'.exists_cons
    obtain ⟨last, hlast, -⟩ := Lexes.of_cons hlex'
    have hlen₅ := (length_of_scan hlast).1
    obtain ⟨fuel, rfl⟩ : ∃ k, fuel = k + 1 := ⟨fuel - 1, by omega⟩
    rw [parseMembers]
    dsimp only
    rw [hcolon]
    dsimp only
    rw [hfirst, ih hvalue fuel _ _ hfirst (by omega)]
    dsimp only
    rw [hcomma]
    dsimp only
    rw [hlast, ih' hlex' fuel _ _ _ rest' hlast (by omega) hend]
    rfl
  | float hx =>
    intro fuel token input' hscan hfuel
    obtain ⟨mid, hscan', hnil⟩ := Lexes.of_cons hlex
    rw [hscan] at hscan'
    cases hscan'
    cases hnil
    obtain ⟨fuel, rfl⟩ : ∃ k, fuel = k + 1 := ⟨fuel - 1, by omega⟩
    rw [parseInternal, if_pos hx]
  | _ =>
    intro fuel token input' hscan hfuel
    obtain ⟨mid, hscan', hnil⟩ := Lexes.of_cons hlex
    rw [hscan] at hscan'
    cases hscan'
    cases hnil
    obtain ⟨fuel, rfl⟩ : ∃ k, fuel = k + 1 := ⟨fuel - 1, by omega⟩
    rfl

/-! ## What the parser reads is derived -/

/-- What a pass over an element of an array does. -/
theorem of_parseElements {fuel : ℕ} {result : List (Json F)} {token : Token F} {input rest : List UInt8}
    {j : Json F} (h : parseElements (fuel + 1) result token input = .ok (j, rest)) :
    ∃ value mid, parseInternal fuel token input = .ok (value, mid) ∧
      ((∃ next token' last, scan (F := F) mid = (.valueSeparator, next) ∧
        scan next = (token', last) ∧
        parseElements fuel (result ++ [value]) token' last = .ok (j, rest)) ∨
      (scan (F := F) mid = (.endArray, rest) ∧ j = .array (result ++ [value]))) := by
  rw [parseElements] at h
  cases hvalue : parseInternal fuel token input with
  | error e =>
    rw [hvalue] at h
    cases h
  | ok p =>
    obtain ⟨value, mid⟩ := p
    rw [hvalue] at h
    dsimp only at h
    refine ⟨value, mid, rfl, ?_⟩
    cases hscan : scan (F := F) mid with
    | mk t next =>
      rw [hscan] at h
      cases t with
      | valueSeparator => exact .inl ⟨next, _, _, rfl, rfl, h⟩
      | endArray =>
        cases h
        exact .inr ⟨rfl, rfl⟩
      | _ => cases h

/-- What a pass over a member of an object does. -/
theorem of_parseMembers {fuel : ℕ} {result : Members F} {token : Token F} {input rest : List UInt8}
    {j : Json F} (h : parseMembers (fuel + 1) result token input = .ok (j, rest)) :
    ∃ key next first value token' mid, token = .valueString key ∧
      scan (F := F) input = (.nameSeparator, next) ∧ scan next = (token', first) ∧
      parseInternal fuel token' first = .ok (value, mid) ∧
      ((∃ after token'' last, scan (F := F) mid = (.valueSeparator, after) ∧
        scan after = (token'', last) ∧
        parseMembers fuel (SortedMap.emplace key value result) token'' last = .ok (j, rest)) ∨
      (scan (F := F) mid = (.endObject, rest) ∧
        j = .object (SortedMap.emplace key value result))) := by
  cases token with
  | valueString key =>
    rw [parseMembers] at h
    cases hcolon : scan (F := F) input with
    | mk t next =>
      rw [hcolon] at h
      cases t with
      | nameSeparator =>
        dsimp only at h
        cases hvalue : parseInternal fuel (scan (F := F) next).1 (scan (F := F) next).2 with
        | error e =>
          rw [hvalue] at h
          cases h
        | ok p =>
          obtain ⟨value, mid⟩ := p
          rw [hvalue] at h
          dsimp only at h
          refine ⟨key, next, _, value, _, mid, rfl, rfl, rfl, hvalue, ?_⟩
          cases hscan : scan (F := F) mid with
          | mk t after =>
            rw [hscan] at h
            cases t with
            | valueSeparator => exact .inl ⟨after, _, _, rfl, rfl, h⟩
            | endObject =>
              cases h
              exact .inr ⟨rfl, rfl⟩
            | _ => cases h
      | _ => cases h
  | _ => simp [parseMembers] at h

/-- Whatever is read is derived, with the bracket that comes after elements or members. -/
theorem derives_of_parse (fuel : ℕ) :
    (∀ (token : Token F) input (j : Json F) rest,
      parseInternal fuel token input = .ok (j, rest) →
        ∃ ts, Derives (token :: ts) (.value j) ∧ Lexes input ts rest) ∧
    (∀ result (token : Token F) input (j : Json F) rest',
      parseElements fuel result token input = .ok (j, rest') →
        ∃ ts a rest, Derives (token :: ts) (.elements a) ∧ Lexes input ts rest ∧
          scan (F := F) rest = (.endArray, rest') ∧ j = .array (result ++ a)) ∧
    (∀ result (token : Token F) input (j : Json F) rest',
      parseMembers fuel result token input = .ok (j, rest') →
        ∃ ts o rest, Derives (token :: ts) (.members o) ∧ Lexes input ts rest ∧
          scan (F := F) rest = (.endObject, rest') ∧
          j = .object (o.foldl (fun m e => SortedMap.emplace e.1 e.2 m) result)) := by
  induction fuel with
  | zero =>
    refine ⟨fun _ _ _ _ h => ?_, fun _ _ _ _ _ h => ?_, fun _ _ _ _ _ h => ?_⟩
    · rw [parseInternal] at h
      cases h
    · rw [parseElements] at h
      cases h
    · rw [parseMembers] at h
      cases h
  | succ fuel ih =>
    obtain ⟨ihvalue, ihelements, ihmembers⟩ := ih
    refine ⟨fun token input j rest h => ?_, fun result token input j rest' h => ?_,
      fun result token input j rest' h => ?_⟩
    · cases token with
      | beginArray =>
        cases hscan : scan (F := F) input with
        | mk t next =>
          by_cases hend : t = .endArray
          · subst hend
            rw [parseInternal, hscan] at h
            cases h
            exact ⟨_, .emptyArray, .cons hscan (.nil _)⟩
          · rw [parseInternal_beginArray hscan hend] at h
            obtain ⟨ts, a, rest', hderives, hlex, hend, rfl⟩ := ihelements _ _ _ _ _ h
            exact ⟨_, .array hderives, .cons hscan (hlex.append (.cons hend (.nil _)))⟩
      | beginObject =>
        cases hscan : scan (F := F) input with
        | mk t next =>
          by_cases hend : t = .endObject
          · subst hend
            rw [parseInternal, hscan] at h
            cases h
            exact ⟨_, .emptyObject, .cons hscan (.nil _)⟩
          · rw [parseInternal_beginObject hscan hend] at h
            obtain ⟨ts, o, rest', hderives, hlex, hend, rfl⟩ := ihmembers _ _ _ _ _ h
            exact ⟨_, .object hderives, .cons hscan (hlex.append (.cons hend (.nil _)))⟩
      | valueFloat x =>
        rw [parseInternal] at h
        split_ifs at h with hx
        cases h
        exact ⟨[], .float hx, .nil _⟩
      | literalNull => cases h; exact ⟨[], .null, .nil _⟩
      | literalTrue => cases h; exact ⟨[], .literalTrue, .nil _⟩
      | literalFalse => cases h; exact ⟨[], .literalFalse, .nil _⟩
      | valueString s => cases h; exact ⟨[], .string s, .nil _⟩
      | valueUnsigned n => cases h; exact ⟨[], .unsigned n, .nil _⟩
      | valueInteger n => cases h; exact ⟨[], .integer n, .nil _⟩
      | _ => cases h
    · obtain ⟨value, mid, hvalue, hmore⟩ := of_parseElements h
      obtain ⟨ts, hderives, hlex⟩ := ihvalue _ _ _ _ hvalue
      rcases hmore with ⟨next, token', last, hcomma, hlast, hrest⟩ | ⟨hend, rfl⟩
      · obtain ⟨ts', a, rest, hderives', hlex', hend, rfl⟩ := ihelements _ _ _ _ _ hrest
        refine ⟨_, _, rest, .elements hderives hderives',
          hlex.append (.cons hcomma (.cons hlast hlex')), hend, ?_⟩
        rw [List.append_assoc, List.singleton_append]
      · exact ⟨ts, [value], mid, .element hderives, hlex, hend, rfl⟩
    · obtain ⟨key, next, first, value, token', mid, rfl, hcolon, hfirst, hvalue, hmore⟩ :=
        of_parseMembers h
      obtain ⟨ts, hderives, hlex⟩ := ihvalue _ _ _ _ hvalue
      rcases hmore with ⟨after, token'', last, hcomma, hlast, hrest⟩ | ⟨hend, rfl⟩
      · obtain ⟨ts', o, rest, hderives', hlex', hend, rfl⟩ := ihmembers _ _ _ _ _ hrest
        exact ⟨_, _, rest, .members hderives hderives',
          .cons hcolon (.cons hfirst (hlex.append (.cons hcomma (.cons hlast hlex')))), hend, rfl⟩
      · exact ⟨_, [(key, value)], mid, .member hderives, .cons hcolon (.cons hfirst hlex), hend, rfl⟩

/-! ## The bound is large enough -/

omit [NumberFloat F] in
/-- An unexpected token is no lack of a bound. -/
theorem unexpected_ne_outOfFuel (token : Token F) (expected : Option String) :
    unexpected token expected ≠ .outOfFuel := by
  cases token <;> simp [unexpected]

/-- The bound that a pass needs: enough for the input after a proper token, and little else. -/
def Enough (slack fuel : ℕ) (token : Token F) (input : List UInt8) : Prop :=
  slack + 1 ≤ fuel ∧ (Proper token → 2 * input.length + slack + 4 ≤ fuel)

/-- What is left after a proper token is shorter. -/
theorem length_scan_lt {input : List UInt8} (h : Proper (scan (F := F) input).1) :
    (scan (F := F) input).2.length < input.length :=
  (length_of_scan (Prod.mk.eta (p := scan input)).symm).2 h

/-- With an input that has got shorter, the bound is still enough. -/
theorem enough_scan {slack fuel : ℕ} {input : List UInt8} (hfuel : 2 * input.length + slack + 2 ≤ fuel) :
    Enough slack fuel (scan (F := F) input).1 (scan (F := F) input).2 := by
  refine ⟨by omega, fun hproper => ?_⟩
  have := length_scan_lt hproper
  omega

/-- With an input that has got shorter, the bound is still enough. -/
theorem enough_of_scan {slack fuel : ℕ} {input next : List UInt8} {token : Token F}
    (hscan : scan input = (token, next)) (hfuel : 2 * input.length + slack + 2 ≤ fuel) :
    Enough slack fuel token next := by
  have henough := enough_scan (F := F) hfuel
  rwa [hscan] at henough

/-- A value that is read starts with a proper token, and leaves no more than there was. -/
theorem length_of_parseInternal {fuel : ℕ} {token : Token F} {input mid : List UInt8} {value : Json F}
    (h : parseInternal fuel token input = .ok (value, mid)) :
    Proper token ∧ mid.length ≤ input.length := by
  obtain ⟨ts, hderives, hlex⟩ := (derives_of_parse fuel).1 _ _ _ _ h
  obtain ⟨t, ts', hcons, hproper, -⟩ := hderives.exists_cons
  obtain rfl : token = t := (List.cons.inj hcons).1
  exact ⟨hproper, hlex.length_le⟩

/-- With enough of a bound, the parser never runs out of it. -/
theorem parseInternal_ne_outOfFuel (fuel : ℕ) :
    (∀ (token : Token F) input, Enough 0 fuel token input →
      parseInternal fuel token input ≠ .error .outOfFuel) ∧
    (∀ result (token : Token F) input, Enough 1 fuel token input →
      parseElements fuel result token input ≠ .error .outOfFuel) ∧
    (∀ result (token : Token F) input, Enough 1 fuel token input →
      parseMembers fuel result token input ≠ .error .outOfFuel) := by
  induction fuel with
  | zero =>
    refine ⟨fun _ _ h => ?_, fun _ _ _ h => ?_, fun _ _ _ h => ?_⟩ <;> exact absurd h.1 (by omega)
  | succ fuel ih =>
    obtain ⟨ihvalue, ihelements, ihmembers⟩ := ih
    refine ⟨fun token input hfuel => ?_, fun result token input hfuel => ?_,
      fun result token input hfuel => ?_⟩
    · cases token with
      | beginArray =>
        have henough := hfuel.2 (by simp [Proper])
        cases hscan : scan (F := F) input with
        | mk t next =>
          by_cases hend : t = .endArray
          · subst hend
            rw [parseInternal, hscan]
            exact fun h => by cases h
          · rw [parseInternal_beginArray hscan hend]
            exact ihelements _ _ _ (enough_of_scan hscan (by omega))
      | beginObject =>
        have henough := hfuel.2 (by simp [Proper])
        cases hscan : scan (F := F) input with
        | mk t next =>
          by_cases hend : t = .endObject
          · subst hend
            rw [parseInternal, hscan]
            exact fun h => by cases h
          · rw [parseInternal_beginObject hscan hend]
            exact ihmembers _ _ _ (enough_of_scan hscan (by omega))
      | valueFloat x =>
        rw [parseInternal]
        split_ifs <;> exact fun h => by cases h
      | _ => exact fun h => by cases h
    · rw [parseElements]
      cases hvalue : parseInternal fuel token input with
      | error e =>
        have hne := ihvalue token input ⟨by have := hfuel.1; omega, fun hp => by
          have := hfuel.2 hp
          omega⟩
        rw [hvalue] at hne
        exact fun h => hne (by cases h; rfl)
      | ok p =>
        obtain ⟨value, mid⟩ := p
        obtain ⟨hproper, hmid⟩ := length_of_parseInternal hvalue
        have henough := hfuel.2 hproper
        dsimp only
        cases hscan : scan (F := F) mid with
        | mk t next =>
          cases t with
          | valueSeparator =>
            have hnext := (length_of_scan hscan).2 (by simp [Proper])
            exact ihelements _ _ _ (enough_scan (by omega))
          | endArray => exact fun h => by cases h
          | _ => exact fun h => unexpected_ne_outOfFuel _ _ (Except.error.inj h)
    · cases token with
      | valueString key =>
        have henough := hfuel.2 (by simp [Proper])
        rw [parseMembers]
        cases hcolon : scan (F := F) input with
        | mk t next =>
          cases t with
          | nameSeparator =>
            have hnext := (length_of_scan hcolon).2 (by simp [Proper])
            dsimp only
            cases hvalue : parseInternal fuel (scan (F := F) next).1 (scan (F := F) next).2 with
            | error e =>
              have hne := ihvalue _ _ (enough_scan (show 2 * next.length + 0 + 2 ≤ fuel by omega))
              rw [hvalue] at hne
              exact fun h => hne (by cases h; rfl)
            | ok p =>
              obtain ⟨value, mid⟩ := p
              obtain ⟨hproper, hmid⟩ := length_of_parseInternal hvalue
              have hfirst := length_scan_lt hproper
              dsimp only
              cases hscan : scan (F := F) mid with
              | mk t after =>
                cases t with
                | valueSeparator =>
                  have hafter := (length_of_scan hscan).2 (by simp [Proper])
                  exact ihmembers _ _ _ (enough_scan (by omega))
                | endObject => exact fun h => by cases h
                | _ => exact fun h => unexpected_ne_outOfFuel _ _ (Except.error.inj h)
          | _ => exact fun h => unexpected_ne_outOfFuel _ _ (Except.error.inj h)
      | _ => simp [parseMembers, unexpected_ne_outOfFuel]

/-! ## The whole message -/

/-- A message that is the text of a value: after a byte order mark, if there is one, its tokens are
those of the value, and then comes the end of the input. -/
def Text (message : List UInt8) (j : Json F) : Prop :=
  ∃ ts rest rest', Derives ts (.value j) ∧ Lexes (skipByteOrderMark message) ts rest ∧
    scan (F := F) rest = (.endOfInput, rest')

/-- A byte order mark is not longer than the message. -/
theorem length_skipByteOrderMark (message : List UInt8) :
    (skipByteOrderMark message).length ≤ message.length := by
  unfold skipByteOrderMark
  split
  · simp only [List.length_cons]
    omega
  · exact le_rfl

/-- The text of a value is parsed to it. -/
theorem Text.parse_eq {message : List UInt8} {j : Json F} (h : Text message j) :
    parse message = .ok j := by
  obtain ⟨ts, rest, rest', hderives, hlex, hend⟩ := h
  obtain ⟨t, ts, rfl, -⟩ := hderives.exists_cons
  obtain ⟨input, hscan, -⟩ := Lexes.of_cons hlex
  have hlen := (length_of_scan hscan).1
  have hlen' := length_skipByteOrderMark message
  have hparse := hderives.parses hlex (2 * message.length + 2) t input hscan (by omega)
  rw [parse, hscan]
  dsimp only
  rw [hparse]
  dsimp only
  rw [hend]

/-- What is parsed to a value is the text of it. -/
theorem text_of_parse {message : List UInt8} {j : Json F} (h : parse message = .ok j) :
    Text message j := by
  unfold parse at h
  cases hscan : scan (F := F) (skipByteOrderMark message) with
  | mk token input =>
    rw [hscan] at h
    dsimp only at h
    cases hvalue : parseInternal (2 * message.length + 2) token input with
    | error e =>
      rw [hvalue] at h
      cases h
    | ok p =>
      obtain ⟨value, rest⟩ := p
      rw [hvalue] at h
      dsimp only at h
      obtain ⟨ts, hderives, hlex⟩ := (derives_of_parse _).1 _ _ _ _ hvalue
      cases hend : scan (F := F) rest with
      | mk t rest' =>
        rw [hend] at h
        cases t with
        | endOfInput =>
          cases h
          exact ⟨_, rest, rest', hderives, .cons hscan hlex, hend⟩
        | _ => cases h

/-- The bound that `parse` sets on the depth of the recursion is never reached. -/
theorem parse_ne_outOfFuel (message : List UInt8) :
    parse (F := F) message ≠ .error .outOfFuel := by
  unfold parse
  cases hscan : scan (F := F) (skipByteOrderMark message) with
  | mk token input =>
    have hlen := length_skipByteOrderMark message
    have henough : Enough 0 (2 * message.length + 2) token input :=
      enough_of_scan hscan (by omega)
    dsimp only
    cases hvalue : parseInternal (2 * message.length + 2) token input with
    | error e =>
      have hne := (parseInternal_ne_outOfFuel _).1 token input henough
      rw [hvalue] at hne
      exact fun h => hne (by cases h; rfl)
    | ok p =>
      dsimp only
      cases hend : scan (F := F) p.2 with
      | mk t rest =>
        cases t with
        | endOfInput => exact fun h => by cases h
        | _ => exact fun h => unexpected_ne_outOfFuel _ _ (Except.error.inj h)

/-- The messages that are parsed, and what they are parsed to. -/
theorem parse_eq_ok_iff {message : List UInt8} {j : Json F} :
    parse message = .ok j ↔ Text message j :=
  ⟨text_of_parse, Text.parse_eq⟩

/-- Of several members with one key, the first one counts. -/
theorem parse_object {message : List UInt8} {ts : List (Token F)} {rest rest' : List UInt8}
    {o : Members F} (hderives : Derives ts (.members o))
    (hlex : Lexes (skipByteOrderMark message) (.beginObject :: (ts ++ [.endObject])) rest)
    (hend : scan (F := F) rest = (.endOfInput, rest')) :
    ∃ m, parse message = .ok (.object m) ∧ SortedMap.Sorted m ∧ ∀ key, m.lookup key = o.lookup key :=
  ⟨_, Text.parse_eq ⟨_, rest, rest', .object hderives, hlex, hend⟩, SortedMap.sorted_ofList o,
    SortedMap.lookup_ofList o⟩

/-- In `{"a":true,"a":false}`, the member `a` is `true`. -/
theorem parse_object_twice : ∃ m, parse (F := Sample) (['\x7b', '"', 'a', '"', ':', 't', 'r', 'u', 'e', ',',
      '"', 'a', '"', ':', 'f', 'a', 'l', 's', 'e', '\x7d'].map Char.toUInt8) = .ok (.object m) ∧
    SortedMap.Sorted m ∧ ∀ key, m.lookup key =
      List.lookup key [(['a'.toUInt8], .boolean true), (['a'.toUInt8], .boolean false)] :=
  parse_object (.members .literalTrue (.member .literalFalse))
    (.cons rfl (.cons (scan_string ['a'] _) (.cons rfl (.cons rfl (.cons rfl
      (.cons (scan_string ['a'] _) (.cons rfl (.cons rfl (.cons rfl (.nil []))))))))))
    rfl

/-! ## What is derived is well formed -/

/-- What a phrase stands for is well formed: its values are, and the keys of its members are UTF-8. -/
def Item.WellFormed : Item F → Prop
  | .value j => j.WellFormed finite
  | .elements a => ∀ j ∈ a, j.WellFormed finite
  | .members o => ∀ m ∈ o, Utf8.Valid m.1 ∧ m.2.WellFormed finite

/-- Whatever is derived from tokens with valid strings is well formed. -/
theorem Derives.wellFormed {ts : List (Token F)} {item : Item F} (h : Derives ts item)
    (hvalid : ∀ t ∈ ts, TokenValid t) : item.WellFormed := by
  induction h with
  | null => exact .null
  | literalTrue => exact .boolean true
  | literalFalse => exact .boolean false
  | string s => exact .string (hvalid _ List.mem_cons_self)
  | unsigned n => exact .numberUnsigned n
  | integer n => exact .numberInteger n
  | float hx => exact .numberFloat hx
  | emptyArray => exact .array fun _ hj => by cases hj
  | array _ ih =>
    exact .array (ih fun t ht => hvalid t (List.mem_cons_of_mem _ (List.mem_append_left _ ht)))
  | emptyObject =>
    exact .object List.Pairwise.nil (fun _ hm => by cases hm) fun _ hm => by cases hm
  | object _ ih =>
    have hmembers := ih fun t ht => hvalid t (List.mem_cons_of_mem _ (List.mem_append_left _ ht))
    exact .object (SortedMap.sorted_ofList _)
      (fun m hm => (hmembers m (SortedMap.mem_of_mem_ofList hm)).1)
      fun m hm => (hmembers m (SortedMap.mem_of_mem_ofList hm)).2
  | element _ ih => exact List.forall_mem_singleton.2 (ih hvalid)
  | elements _ _ ih ih' =>
    refine List.forall_mem_cons.2 ⟨ih fun t ht => hvalid t (List.mem_append_left _ ht),
      ih' fun t ht => hvalid t (List.mem_append_right _ (List.mem_cons_of_mem _ ht))⟩
  | member _ ih =>
    obtain ⟨hkey, hvalid⟩ := List.forall_mem_cons.1 hvalid
    exact List.forall_mem_singleton.2
      ⟨hkey, ih fun t ht => hvalid t (List.mem_cons_of_mem _ ht)⟩
  | members _ _ ih ih' =>
    obtain ⟨hkey, hvalid⟩ := List.forall_mem_cons.1 hvalid
    have hvalid := (List.forall_mem_cons.1 hvalid).2
    refine List.forall_mem_cons.2 ⟨⟨hkey, ih fun t ht => hvalid t (List.mem_append_left _ ht)⟩,
      ih' fun t ht => hvalid t (List.mem_append_right _ (List.mem_cons_of_mem _ ht))⟩

/-- The value of a text is well formed, with finite numbers. -/
theorem Text.wellFormed {message : List UInt8} {j : Json F} (h : Text message j) :
    j.WellFormed finite := by
  obtain ⟨ts, rest, rest', hderives, hlex, -⟩ := h
  exact hderives.wellFormed hlex.tokenValid

/-- Every value that is parsed is well formed, with finite numbers. -/
theorem wellFormed_of_parse {message : List UInt8} {j : Json F} (h : parse message = .ok j) :
    j.WellFormed finite :=
  (text_of_parse h).wellFormed

/-- The value of `[0.5]` is well formed. -/
theorem wellFormed_of_parse_array : WellFormed finite (.array [.numberFloat Sample.half]) :=
  wellFormed_of_parse (show parse (['[', '0', '.', '5', ']'].map Char.toUInt8) = _ from rfl)

end Json

end Typhoon
