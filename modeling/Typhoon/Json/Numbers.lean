import Typhoon.Json.Serializer

/-!
# Numbers

`scan_number` recognises the numbers of the JSON grammar (`NumberText`): it scans each of them up to bytes
that cannot continue it (`scanNumber_bytes`), and whatever it scans is one of them (`exists_numberText`).
-/

namespace Typhoon.Json

open CString (isdigit)

/-- Bytes that are digits. -/
def Digits (ds : List UInt8) : Prop := ∀ c ∈ ds, isdigit c = true

/-- No bytes are digits. -/
theorem digits_nil : Digits [] := fun _ hc => by cases hc

/-- A digit before digits makes digits. -/
theorem digits_cons {d : UInt8} {ds : List UInt8} (hd : isdigit d = true) (hds : Digits ds) :
    Digits (d :: ds) := List.forall_mem_cons.2 ⟨hd, hds⟩

/-- The integer of a number, without a leading zero. -/
inductive IntPart : List UInt8 → Prop
  | zero : IntPart ['0'.toUInt8]
  | nonzero {d : UInt8} {ds : List UInt8} (hd : isdigit d = true) (hne : d ≠ '0'.toUInt8)
      (hds : Digits ds) : IntPart (d :: ds)

/-- The fraction of a number, if there is one. -/
inductive FracPart : List UInt8 → Prop
  | none : FracPart []
  | point {d : UInt8} {ds : List UInt8} (hd : isdigit d = true) (hds : Digits ds) :
      FracPart ('.'.toUInt8 :: d :: ds)

/-- The exponent of a number, if there is one. -/
inductive ExpPart : List UInt8 → Prop
  | none : ExpPart []
  | unsigned {e d : UInt8} {ds : List UInt8} (he : e = 'e'.toUInt8 ∨ e = 'E'.toUInt8)
      (hd : isdigit d = true) (hds : Digits ds) : ExpPart (e :: d :: ds)
  | signed {e sign d : UInt8} {ds : List UInt8} (he : e = 'e'.toUInt8 ∨ e = 'E'.toUInt8)
      (hsign : sign = '+'.toUInt8 ∨ sign = '-'.toUInt8) (hd : isdigit d = true)
      (hds : Digits ds) : ExpPart (e :: sign :: d :: ds)

/-- The text of a number. -/
structure NumberText where
  minus : Bool
  int : List UInt8
  frac : List UInt8
  exp : List UInt8
  int_part : IntPart int
  frac_part : FracPart frac
  exp_part : ExpPart exp

/-- The bytes of a number. -/
def NumberText.bytes (t : NumberText) : List UInt8 :=
  (if t.minus then ['-'.toUInt8] else []) ++ (t.int ++ (t.frac ++ t.exp))

/-- The type of a number: a float with a fraction or an exponent, and else an integer with its sign. -/
def NumberText.type (t : NumberText) : NumberType :=
  if t.frac = [] ∧ t.exp = [] then if t.minus then .integer else .unsigned else .float

/-- Bytes that do not continue a number. -/
def Stops (rest : List UInt8) : Prop :=
  ∀ c ∈ rest.head?, isdigit c = false ∧ c ≠ '.'.toUInt8 ∧ ¬ (c = 'e'.toUInt8 ∨ c = 'E'.toUInt8)

/-- The end of the input does not continue a number. -/
theorem stops_nil : Stops [] := fun _ h => by cases h

/-- A digit is neither the point, nor a sign, nor the start of an exponent. -/
theorem ne_of_isdigit {c d : UInt8} (hd : isdigit d = true) (hc : isdigit c = false) : d ≠ c := by
  rintro rfl
  rw [hd] at hc
  cases hc

/-- The start of an exponent is no digit. -/
theorem isdigit_of_e {e : UInt8} (he : e = 'e'.toUInt8 ∨ e = 'E'.toUInt8) : isdigit e = false := by
  rcases he with rfl | rfl <;> decide

/-- The start of an exponent is not the point. -/
theorem ne_point_of_e {e : UInt8} (he : e = 'e'.toUInt8 ∨ e = 'E'.toUInt8) : e ≠ '.'.toUInt8 := by
  rcases he with rfl | rfl <;> decide

/-! ## Numbers are scanned -/

section

variable {rest : List UInt8}

/-- The digits of an exponent are scanned to their end. -/
theorem scanNumberAny2_append (hrest : Stops rest) {ds : List UInt8} (hds : Digits ds)
    (tokenBuffer : List UInt8) :
    scanNumberAny2 tokenBuffer (ds ++ rest) = (.float, tokenBuffer ++ ds, rest) := by
  induction ds generalizing tokenBuffer with
  | nil =>
    rw [List.nil_append, List.append_nil]
    cases rest with
    | nil => rfl
    | cons c rest => rw [scanNumberAny2, (hrest c rfl).1, if_neg Bool.false_ne_true]
  | cons d ds ih =>
    have hd := hds d (List.mem_cons_self ..)
    rw [List.cons_append, scanNumberAny2, if_pos hd,
      ih fun c hc => hds c (List.mem_cons_of_mem _ hc), List.append_assoc, List.singleton_append]

/-- An exponent is scanned from after its `e` to its end. -/
theorem scanNumberExponent_append (hrest : Stops rest) {e : UInt8} {tl : List UInt8}
    (h : ExpPart (e :: tl)) (tokenBuffer : List UInt8) :
    scanNumberExponent tokenBuffer (tl ++ rest) = .ok (.float, tokenBuffer ++ tl, rest) := by
  cases h with
  | @unsigned _ d ds _ hd hds =>
    have hplus := ne_of_isdigit (c := '+'.toUInt8) hd (by decide)
    have hminus := ne_of_isdigit (c := '-'.toUInt8) hd (by decide)
    rw [List.cons_append, scanNumberExponent, if_neg (not_or.2 ⟨hplus, hminus⟩), if_pos hd,
      scanNumberAny2_append hrest hds, List.append_assoc, List.singleton_append]
  | @signed _ sign d ds _ hsign hd hds =>
    rw [List.cons_append, scanNumberExponent, if_pos hsign, List.cons_append, scanNumberSign,
      if_pos hd, scanNumberAny2_append hrest hds, List.append_assoc, List.append_assoc]
    rfl

/-- The digits of a fraction and an exponent are scanned to their end. -/
theorem scanNumberDecimal2_append (hrest : Stops rest) {ds exp : List UInt8} (hds : Digits ds)
    (hexp : ExpPart exp) (tokenBuffer : List UInt8) :
    scanNumberDecimal2 tokenBuffer (ds ++ (exp ++ rest)) =
      .ok (.float, tokenBuffer ++ (ds ++ exp), rest) := by
  induction ds generalizing tokenBuffer with
  | nil =>
    rw [List.nil_append, List.nil_append]
    cases exp with
    | nil =>
      rw [List.nil_append, List.append_nil]
      cases rest with
      | nil => rfl
      | cons c rest =>
        obtain ⟨hdigit, -, he⟩ := hrest c rfl
        rw [scanNumberDecimal2, hdigit, if_neg Bool.false_ne_true, if_neg he]
    | cons e tl =>
      have he : e = 'e'.toUInt8 ∨ e = 'E'.toUInt8 := by cases hexp <;> assumption
      rw [List.cons_append, scanNumberDecimal2, isdigit_of_e he, if_neg Bool.false_ne_true, if_pos he,
        scanNumberExponent_append hrest hexp, List.append_assoc, List.singleton_append]
  | cons d ds ih =>
    have hd := hds d (List.mem_cons_self ..)
    rw [List.cons_append, scanNumberDecimal2, if_pos hd,
      ih fun c hc => hds c (List.mem_cons_of_mem _ hc), List.append_assoc]
    rfl

/-- What follows the integer of a number is scanned to its end. -/
theorem scanNumberZero_append (hrest : Stops rest) {frac exp : List UInt8} (hfrac : FracPart frac)
    (hexp : ExpPart exp) (numberType : NumberType) (tokenBuffer : List UInt8) :
    scanNumberZero numberType tokenBuffer (frac ++ (exp ++ rest)) =
      .ok (if frac = [] ∧ exp = [] then numberType else .float, tokenBuffer ++ (frac ++ exp),
        rest) := by
  cases hfrac with
  | none =>
    rw [List.nil_append, List.nil_append]
    cases exp with
    | nil =>
      rw [List.nil_append, List.append_nil, if_pos ⟨rfl, rfl⟩]
      cases rest with
      | nil => rfl
      | cons c rest =>
        obtain ⟨-, hpoint, he⟩ := hrest c rfl
        rw [scanNumberZero, if_neg hpoint, if_neg he]
    | cons e tl =>
      have he : e = 'e'.toUInt8 ∨ e = 'E'.toUInt8 := by cases hexp <;> assumption
      rw [List.cons_append, scanNumberZero, if_neg (ne_point_of_e he), if_pos he,
        scanNumberExponent_append hrest hexp, if_neg (fun h => List.cons_ne_nil _ _ h.2),
        List.append_assoc, List.singleton_append]
  | @point d ds hd hds =>
    rw [List.cons_append, scanNumberZero, if_pos rfl, List.cons_append, scanNumberDecimal1, if_pos hd,
      scanNumberDecimal2_append hrest hds hexp, if_neg (fun h => List.cons_ne_nil _ _ h.1)]
    simp only [List.append_assoc, List.cons_append, List.nil_append]

/-- The digits of an integer, and what follows them, are scanned to their end. -/
theorem scanNumberAny1_append (hrest : Stops rest) {ds frac exp : List UInt8} (hds : Digits ds)
    (hfrac : FracPart frac) (hexp : ExpPart exp) (numberType : NumberType)
    (tokenBuffer : List UInt8) :
    scanNumberAny1 numberType tokenBuffer (ds ++ (frac ++ (exp ++ rest))) =
      .ok (if frac = [] ∧ exp = [] then numberType else .float,
        tokenBuffer ++ (ds ++ (frac ++ exp)), rest) := by
  induction ds generalizing tokenBuffer with
  | nil =>
    -- Past the digits, this is the state after a zero.
    have hzero := scanNumberZero_append hrest hfrac hexp numberType tokenBuffer
    rw [List.nil_append, List.nil_append, ← hzero]
    cases hinput : frac ++ (exp ++ rest) with
    | nil => rfl
    | cons c input =>
      have hc : isdigit c = false := by
        cases hfrac with
        | none =>
          cases exp with
          | nil =>
            rw [List.nil_append, List.nil_append] at hinput
            exact (hrest c (by rw [hinput]; rfl)).1
          | cons e tl =>
            have he : e = 'e'.toUInt8 ∨ e = 'E'.toUInt8 := by cases hexp <;> assumption
            cases hinput
            exact isdigit_of_e he
        | point _ _ =>
          cases hinput
          decide
      rw [scanNumberAny1, scanNumberZero, hc, if_neg Bool.false_ne_true]
  | cons d ds ih =>
    have hd := hds d (List.mem_cons_self ..)
    rw [List.cons_append, scanNumberAny1, if_pos hd,
      ih fun c hc => hds c (List.mem_cons_of_mem _ hc), List.append_assoc]
    rfl

/-- A number is scanned up to bytes that do not continue it. -/
theorem scanNumber_bytes (hrest : Stops rest) (t : NumberText) :
    ∃ c tl, t.bytes = c :: tl ∧ (c = '-'.toUInt8 ∨ isdigit c = true) ∧
      scanNumber c (tl ++ rest) = .ok (t.type, t.bytes, rest) := by
  obtain ⟨minus, int, frac, exp, hint, hfrac, hexp⟩ := t
  cases minus with
  | true =>
    refine ⟨'-'.toUInt8, int ++ (frac ++ exp), rfl, .inl rfl, ?_⟩
    show scanNumberMinus ['-'.toUInt8] _ = .ok (if frac = [] ∧ exp = [] then .integer else .float, _, _)
    cases hint with
    | zero =>
      have hzero := scanNumberZero_append hrest hfrac hexp .integer ['-'.toUInt8, '0'.toUInt8]
      simp only [List.append_assoc, List.cons_append, List.nil_append] at hzero ⊢
      rw [scanNumberMinus, if_pos rfl]
      exact hzero
    | @nonzero d ds hd hne hds =>
      have hany := scanNumberAny1_append hrest hds hfrac hexp .integer ['-'.toUInt8, d]
      simp only [List.append_assoc, List.cons_append, List.nil_append] at hany ⊢
      rw [scanNumberMinus, if_neg hne, if_pos hd]
      exact hany
  | false =>
    cases hint with
    | zero =>
      refine ⟨'0'.toUInt8, frac ++ exp, rfl, .inr (by decide), ?_⟩
      have hzero := scanNumberZero_append hrest hfrac hexp .unsigned ['0'.toUInt8]
      rw [← List.append_assoc] at hzero
      exact hzero
    | @nonzero d ds hd hne hds =>
      refine ⟨d, ds ++ (frac ++ exp), rfl, .inr hd, ?_⟩
      have hany := scanNumberAny1_append hrest hds hfrac hexp .unsigned [d]
      have hminus := ne_of_isdigit (c := '-'.toUInt8) hd (by decide)
      rw [scanNumber, if_neg hminus, if_neg hne, List.append_assoc, List.append_assoc]
      exact hany

end

/-! ## What is scanned is a number -/

section

variable {numberType : NumberType} {tokenBuffer bytes input rest : List UInt8}

/-- What is scanned as the digits of an exponent are digits. -/
theorem of_scanNumberAny2 (h : scanNumberAny2 tokenBuffer input = (numberType, bytes, rest)) :
    numberType = .float ∧ ∃ ds, Digits ds ∧ input = ds ++ rest ∧ bytes = tokenBuffer ++ ds := by
  induction input generalizing tokenBuffer with
  | nil =>
    cases h
    exact ⟨rfl, [], digits_nil, rfl, (List.append_nil _).symm⟩
  | cons c input ih =>
    rw [scanNumberAny2] at h
    split_ifs at h with hc
    · obtain ⟨hfloat, ds, hds, rfl, rfl⟩ := ih h
      refine ⟨hfloat, c :: ds, digits_cons hc hds, rfl, ?_⟩
      rw [List.append_assoc, List.singleton_append]
    · cases h
      exact ⟨rfl, [], digits_nil, rfl, (List.append_nil _).symm⟩

/-- What is scanned after an `e` is the rest of an exponent. -/
theorem of_scanNumberExponent
    (h : scanNumberExponent tokenBuffer input = .ok (numberType, bytes, rest)) :
    numberType = .float ∧ ∃ tl, (∀ e, e = 'e'.toUInt8 ∨ e = 'E'.toUInt8 → ExpPart (e :: tl)) ∧
      input = tl ++ rest ∧ bytes = tokenBuffer ++ tl := by
  cases input with
  | nil => cases h
  | cons c input =>
    rw [scanNumberExponent] at h
    split_ifs at h with hsign hc
    · cases input with
      | nil => cases h
      | cons d input =>
        rw [scanNumberSign] at h
        split_ifs at h with hd
        simp only [Except.ok.injEq] at h
        obtain ⟨hfloat, ds, hds, rfl, rfl⟩ := of_scanNumberAny2 h
        refine ⟨hfloat, c :: d :: ds, fun e he => .signed he hsign hd hds, rfl, ?_⟩
        simp only [List.append_assoc, List.cons_append, List.nil_append]
    · simp only [Except.ok.injEq] at h
      obtain ⟨hfloat, ds, hds, rfl, rfl⟩ := of_scanNumberAny2 h
      refine ⟨hfloat, c :: ds, fun e he => .unsigned he hc hds, rfl, ?_⟩
      rw [List.append_assoc, List.singleton_append]

/-- What is scanned in a fraction are digits and an exponent. -/
theorem of_scanNumberDecimal2
    (h : scanNumberDecimal2 tokenBuffer input = .ok (numberType, bytes, rest)) :
    numberType = .float ∧ ∃ ds exp, Digits ds ∧ ExpPart exp ∧ input = ds ++ (exp ++ rest) ∧
      bytes = tokenBuffer ++ (ds ++ exp) := by
  induction input generalizing tokenBuffer with
  | nil =>
    cases h
    exact ⟨rfl, [], [], digits_nil, .none, rfl, (List.append_nil _).symm⟩
  | cons c input ih =>
    rw [scanNumberDecimal2] at h
    split_ifs at h with hc he
    · obtain ⟨hfloat, ds, exp, hds, hexp, rfl, rfl⟩ := ih h
      refine ⟨hfloat, c :: ds, exp, digits_cons hc hds, hexp, rfl, ?_⟩
      rw [List.append_assoc, List.singleton_append, List.cons_append]
    · obtain ⟨hfloat, tl, htl, rfl, rfl⟩ := of_scanNumberExponent h
      refine ⟨hfloat, [], c :: tl, digits_nil, htl c he, rfl, ?_⟩
      rw [List.append_assoc, List.singleton_append, List.nil_append]
    · cases h
      exact ⟨rfl, [], [], digits_nil, .none, rfl, (List.append_nil _).symm⟩

/-- What is scanned after a point is a fraction and an exponent. -/
theorem of_scanNumberDecimal1
    (h : scanNumberDecimal1 tokenBuffer input = .ok (numberType, bytes, rest)) :
    numberType = .float ∧ ∃ ds exp, FracPart ('.'.toUInt8 :: ds) ∧ ExpPart exp ∧
      input = ds ++ (exp ++ rest) ∧ bytes = tokenBuffer ++ (ds ++ exp) := by
  cases input with
  | nil => cases h
  | cons d input =>
    rw [scanNumberDecimal1] at h
    split_ifs at h with hd
    obtain ⟨hfloat, ds, exp, hds, hexp, rfl, rfl⟩ := of_scanNumberDecimal2 h
    refine ⟨hfloat, d :: ds, exp, .point hd hds, hexp, rfl, ?_⟩
    rw [List.append_assoc, List.singleton_append, List.cons_append]

/-- What is scanned after a leading 0 is a fraction and an exponent. -/
theorem of_scanNumberZero {numberType₀ : NumberType}
    (h : scanNumberZero numberType₀ tokenBuffer input = .ok (numberType, bytes, rest)) :
    ∃ frac exp, FracPart frac ∧ ExpPart exp ∧ input = frac ++ (exp ++ rest) ∧
      bytes = tokenBuffer ++ (frac ++ exp) ∧
      numberType = if frac = [] ∧ exp = [] then numberType₀ else .float := by
  cases input with
  | nil =>
    cases h
    exact ⟨[], [], .none, .none, rfl, (List.append_nil _).symm, rfl⟩
  | cons c input =>
    rw [scanNumberZero] at h
    split_ifs at h with hpoint he
    · obtain ⟨rfl, ds, exp, hfrac, hexp, rfl, rfl⟩ := of_scanNumberDecimal1 h
      subst hpoint
      refine ⟨_, exp, hfrac, hexp, rfl, ?_, ?_⟩
      · rw [List.append_assoc, List.singleton_append, List.cons_append]
      · rw [if_neg fun h => List.cons_ne_nil _ _ h.1]
    · obtain ⟨rfl, tl, htl, rfl, rfl⟩ := of_scanNumberExponent h
      refine ⟨[], c :: tl, .none, htl c he, rfl, ?_, ?_⟩
      · rw [List.append_assoc, List.singleton_append, List.nil_append]
      · rw [if_neg fun h => List.cons_ne_nil _ _ h.2]
    · cases h
      exact ⟨[], [], .none, .none, rfl, (List.append_nil _).symm, rfl⟩

/-- What is scanned in an integer are digits, a fraction and an exponent. -/
theorem of_scanNumberAny1 {numberType₀ : NumberType}
    (h : scanNumberAny1 numberType₀ tokenBuffer input = .ok (numberType, bytes, rest)) :
    ∃ ds frac exp, Digits ds ∧ FracPart frac ∧ ExpPart exp ∧
      input = ds ++ (frac ++ (exp ++ rest)) ∧ bytes = tokenBuffer ++ (ds ++ (frac ++ exp)) ∧
      numberType = if frac = [] ∧ exp = [] then numberType₀ else .float := by
  induction input generalizing tokenBuffer with
  | nil =>
    cases h
    exact ⟨[], [], [], digits_nil, .none, .none, rfl, (List.append_nil _).symm, rfl⟩
  | cons c input ih =>
    rw [scanNumberAny1] at h
    by_cases hc : isdigit c = true
    · rw [if_pos hc] at h
      obtain ⟨ds, frac, exp, hds, hfrac, hexp, rfl, rfl, htype⟩ := ih h
      refine ⟨c :: ds, frac, exp, digits_cons hc hds, hfrac, hexp, rfl, ?_, htype⟩
      rw [List.append_assoc, List.singleton_append, List.cons_append]
    · -- Past the digits, this is the state after a zero.
      rw [if_neg hc] at h
      have hzero : scanNumberZero numberType₀ tokenBuffer (c :: input) =
          .ok (numberType, bytes, rest) := by
        rw [scanNumberZero]
        exact h
      obtain ⟨frac, exp, hfrac, hexp, hinput, hbytes, htype⟩ := of_scanNumberZero hzero
      exact ⟨[], frac, exp, digits_nil, hfrac, hexp, hinput, hbytes, htype⟩

/-- Whatever is scanned as a number is one. -/
theorem exists_numberText {c : UInt8} (hc : c = '-'.toUInt8 ∨ isdigit c = true)
    (h : scanNumber c input = .ok (numberType, bytes, rest)) :
    ∃ t : NumberText, c :: input = t.bytes ++ rest ∧ bytes = t.bytes ∧ numberType = t.type := by
  rw [scanNumber] at h
  split_ifs at h with hminus hzero
  · subst hminus
    cases input with
    | nil => cases h
    | cons d input =>
      rw [scanNumberMinus] at h
      split_ifs at h with hd0 hd
      · subst hd0
        obtain ⟨frac, exp, hfrac, hexp, rfl, rfl, htype⟩ := of_scanNumberZero h
        refine ⟨⟨true, ['0'.toUInt8], frac, exp, .zero, hfrac, hexp⟩, ?_, ?_, htype⟩ <;>
          simp [NumberText.bytes]
      · obtain ⟨ds, frac, exp, hds, hfrac, hexp, rfl, rfl, htype⟩ := of_scanNumberAny1 h
        refine ⟨⟨true, d :: ds, frac, exp, .nonzero hd hd0 hds, hfrac, hexp⟩, ?_, ?_, htype⟩ <;>
          simp [NumberText.bytes]
  · subst hzero
    obtain ⟨frac, exp, hfrac, hexp, rfl, rfl, htype⟩ := of_scanNumberZero h
    refine ⟨⟨false, ['0'.toUInt8], frac, exp, .zero, hfrac, hexp⟩, ?_, ?_, htype⟩ <;>
      simp [NumberText.bytes]
  · have hd := hc.resolve_left hminus
    obtain ⟨ds, frac, exp, hds, hfrac, hexp, rfl, rfl, htype⟩ := of_scanNumberAny1 h
    refine ⟨⟨false, c :: ds, frac, exp, .nonzero hd hzero hds, hfrac, hexp⟩, ?_, ?_, htype⟩ <;>
      simp [NumberText.bytes]

end

end Typhoon.Json
