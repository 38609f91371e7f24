import Typhoon.Json.RoundTrip

/-!
# Access to a value

How the programs read the values that they have parsed, and build those that they write: `operator[]`, the
conversions to C++ types, and the loop over the elements. Each of them gives the same on a value with finite
numbers and on the value that is read back from its text (`subscript_asRead` and so on), so a program cannot
tell the two apart.
-/

namespace Typhoon

/-- The conversions of `float`, the type of the prices, where `F` is `number_float_t`. -/
class PriceFloat (Price : Type*) (F : outParam (Type*)) where
  /-- The conversion of a `number_float_t`. -/
  toFloat : F → Price
  /-- The conversion of a `number_unsigned_t`. -/
  ofUnsigned : UInt64 → Price
  /-- The conversion of a `number_integer_t`. -/
  ofInteger : Int64 → Price
  /-- The conversion to a `number_float_t`. -/
  toDouble : Price → F

/-- What is known of the conversions. -/
class LawfulPriceFloat (Price : Type*) (F : outParam (Type*)) [NumberFloat F] [PriceFloat Price F] :
    Prop where
  /-- A finite `float` comes back from `number_float_t`. -/
  toFloat_toDouble : ∀ p : Price, NumberFloat.isfinite (PriceFloat.toDouble p) = true →
    PriceFloat.toFloat (PriceFloat.toDouble p) = p
  /-- The two types of integers are converted alike. -/
  ofUnsigned_toUInt64 : ∀ n : Int64, 0 ≤ n →
    (PriceFloat.ofUnsigned n.toUInt64 : Price) = PriceFloat.ofInteger n

/-- The small number format as a `float` that is a `number_float_t` already. -/
instance : PriceFloat Sample Sample where
  toFloat x := x
  ofUnsigned := NumberFloat.ofUnsigned
  ofInteger := NumberFloat.ofInteger
  toDouble x := x

/-- Its conversions lose nothing. -/
instance : LawfulPriceFloat Sample Sample where
  toFloat_toDouble _ _ := rfl
  ofUnsigned_toUInt64 n _ := by
    have hiff : n.toUInt64 = 0 ↔ n = 0 :=
      ⟨fun h => by rw [← Int64.toInt64_toUInt64 n, h]; rfl, fun h => by rw [h]; rfl⟩
    simp only [PriceFloat.ofUnsigned, PriceFloat.ofInteger, NumberFloat.ofUnsigned, NumberFloat.ofInteger,
      hiff]

namespace Json

variable {F Price : Type*} [NumberFloat F] [PriceFloat Price F]

omit [NumberFloat F] in
/-- `type_name`. -/
def typeName : Json F → String
  | .null => "null"
  | .object _ => "object"
  | .array _ => "array"
  | .string _ => "string"
  | .boolean _ => "boolean"
  | _ => "number"

/-! ## Subscripts -/

/-- A key that the source names by a string literal. -/
def key (s : List Char) : List UInt8 := s.map Char.toUInt8

omit [NumberFloat F] in
/-- `operator[]` with a key: the member, and the value that is left. A member that is missing is added, as
`null`, and `null` becomes an object. -/
def subscript (key : List UInt8) : Json F → Except JsonError (Json F × Json F)
  | .null => .ok (.null, .object [(key, .null)])
  | .object o => .ok ((o.lookup key).getD .null, .object (SortedMap.emplace key .null o))
  | j => .error (.cannotUseOperator (typeName j))

omit [NumberFloat F] in
/-- The assignment to a member, `j[key] = value`. -/
def assign (key : List UInt8) (value j : Json F) : Except JsonError (Json F) :=
  match subscript key j with
  | .ok (_, .object o) => .ok (.object (o.map fun m => if m.1 = key then (key, value) else m))
  | .ok (_, j) => .ok j
  | .error e => .error e

/-! ## Conversions -/

/-- `get<long long int>`, where `long long` is not `number_integer_t`: it takes booleans, too. -/
def getLongLong : Json F → Except JsonError Int64
  | .numberUnsigned n => .ok n.toInt64
  | .numberInteger n => .ok n
  | .numberFloat x => .ok (NumberFloat.toLongLong x)
  | .boolean b => .ok (if b then 1 else 0)
  | j => .error (.typeMustBe "number" (typeName j))

omit [NumberFloat F] in
/-- `get<float>`. -/
def getFloat (Price : Type*) [PriceFloat Price F] : Json F → Except JsonError Price
  | .numberUnsigned n => .ok (PriceFloat.ofUnsigned n)
  | .numberInteger n => .ok (PriceFloat.ofInteger n)
  | .numberFloat x => .ok (PriceFloat.toFloat x)
  | .boolean b => .ok (PriceFloat.ofUnsigned (if b then 1 else 0))
  | j => .error (.typeMustBe "number" (typeName j))

omit [NumberFloat F] in
/-- `get<std::string>`. -/
def getString : Json F → Except JsonError (List UInt8)
  | .string s => .ok s
  | j => .error (.typeMustBe "string" (typeName j))

omit [NumberFloat F] in
/-- The values that a range-based `for` loop visits. -/
def elements : Json F → List (Json F)
  | .null => []
  | .array a => a
  | .object o => o.map Prod.snd
  | j => [j]

/-! ## Access to well-formed values -/

/-- A key of ASCII characters is UTF-8. -/
theorem valid_key {s : List Char} (h : (s.all fun c => c.val ≤ 0x7F) = true) : Utf8.Valid (key s) := by
  refine ⟨s, ?_⟩
  induction s with
  | nil => rfl
  | cons c s ih =>
    rw [List.all_cons, Bool.and_eq_true, decide_eq_true_iff] at h
    obtain ⟨hc, hs⟩ := h
    have hle : c.val.toNat ≤ 0x7F := UInt32.le_iff_toNat_le.1 hc
    rcases Utf8.utf8EncodeChar_cases c with ⟨-, he⟩ | ⟨hlt, -⟩ | ⟨hlt, -⟩ | ⟨hlt, -⟩
    · rw [Utf8.encode_cons, he, ← ih hs]
      rfl
    · omega
    · omega
    · omega

variable {floats : Set F}

omit [NumberFloat F] [PriceFloat Price F] in
/-- An object is well formed whose keys the source names, in their order, and whose values are. -/
theorem wellFormed_of_keys {o : Members F} (keys : List (List Char))
    (hmap : o.map Prod.fst = keys.map key) (hsorted : (keys.map key).Pairwise (· < ·))
    (hascii : (keys.all fun s => s.all fun c => c.val ≤ 0x7F) = true) (hvalues : ∀ m ∈ o, m.2.WellFormed floats) :
    WellFormed floats (.object o) := by
  refine .object (by rwa [SortedMap.Sorted, hmap]) (fun m hm => ?_) hvalues
  have hkey := List.mem_map_of_mem (f := Prod.fst) hm
  rw [hmap] at hkey
  obtain ⟨s, hs, hm⟩ := List.mem_map.1 hkey
  rw [← hm]
  exact valid_key (List.all_eq_true.1 hascii s hs)

omit [NumberFloat F] [PriceFloat Price F] in
/-- A subscript of a well-formed value gives and leaves well-formed values. -/
theorem WellFormed.subscript {key : List UInt8} (hkey : Utf8.Valid key) {j v j' : Json F}
    (h : j.WellFormed floats) (hsub : subscript key j = .ok (v, j')) :
    v.WellFormed floats ∧ j'.WellFormed floats := by
  cases h with
  | null =>
    cases hsub
    exact ⟨.null, .object (List.pairwise_singleton _ _) (List.forall_mem_singleton.2 hkey)
      (List.forall_mem_singleton.2 .null)⟩
  | @object o hsorted hkeys hvalues =>
    cases hsub
    constructor
    · cases hlookup : o.lookup key with
      | none => exact .null
      | some w => exact hvalues _ (SortedMap.mem_of_lookup hlookup)
    · refine .object (hsorted.emplace key .null) (fun m hm => ?_) fun m hm => ?_
      · rcases SortedMap.mem_emplace hm with rfl | hm
        · exact hkey
        · exact hkeys m hm
      · rcases SortedMap.mem_emplace hm with rfl | hm
        · exact .null
        · exact hvalues m hm
  | _ => cases hsub

omit [NumberFloat F] [PriceFloat Price F] in
/-- A loop over a well-formed value visits well-formed values. -/
theorem WellFormed.elements {j : Json F} (h : j.WellFormed floats) :
    ∀ k ∈ j.elements, k.WellFormed floats := by
  cases h with
  | null => exact fun _ hk => by cases hk
  | array ha => exact ha
  | object _ _ hvalues =>
    rintro k hk
    obtain ⟨m, hm, rfl⟩ := List.mem_map.1 hk
    exact hvalues m hm
  | boolean b => exact List.forall_mem_singleton.2 (.boolean b)
  | numberInteger n => exact List.forall_mem_singleton.2 (.numberInteger n)
  | numberUnsigned n => exact List.forall_mem_singleton.2 (.numberUnsigned n)
  | numberFloat hx => exact List.forall_mem_singleton.2 (.numberFloat hx)
  | string hs => exact List.forall_mem_singleton.2 (.string hs)

/-! ## Access to what is read back -/

omit [PriceFloat Price F] in
/-- The elements that are read back, one by one. -/
theorem asReadElements_eq_map (a : List (Json F)) : asReadElements a = a.map asRead := by
  induction a with
  | nil => rfl
  | cons j a ih => rw [asReadElements, ih, List.map_cons]

omit [PriceFloat Price F] in
/-- The members that are read back, one by one. -/
theorem asReadMembers_eq_map (o : Members F) : asReadMembers o = o.map fun m => (m.1, asRead m.2) := by
  induction o with
  | nil => rfl
  | cons m o ih => rw [asReadMembers, ih, List.map_cons]

omit [PriceFloat Price F] in
/-- An object is read back member by member. -/
theorem asRead_object (o : Members F) : asRead (.object o) = .object (o.map fun m => (m.1, asRead m.2)) := by
  rw [asRead, asReadMembers_eq_map]

omit [PriceFloat Price F] in
/-- What is read back of a number is a number. -/
theorem asRead_integer (n : Int64) :
    asRead (F := F) (.numberInteger n) = .numberUnsigned n.toUInt64 ∧ 0 ≤ n ∨
      asRead (F := F) (.numberInteger n) = .numberInteger n := by
  rw [asRead]
  split_ifs with hn
  · exact .inl ⟨rfl, hn⟩
  · exact .inr rfl

omit [PriceFloat Price F] in
/-- A finite number is read back. -/
theorem asRead_float {x : F} (hx : x ∈ finite) : asRead (.numberFloat x) = .numberFloat x := by
  rw [asRead, if_pos (show NumberFloat.isfinite x = true from hx)]

omit [PriceFloat Price F] in
/-- A subscript of the value that is read back. -/
theorem subscript_asRead (key : List UInt8) {j : Json F} (h : j.WellFormed finite) :
    subscript key (asRead j) = (subscript key j).map (Prod.map asRead asRead) := by
  cases h with
  | @object o _ _ _ =>
    rw [asRead_object, subscript, subscript, SortedMap.lookup_map]
    show Except.ok _ = Except.ok (_, asRead (.object _))
    rw [asRead_object, SortedMap.map_emplace]
    cases o.lookup key <;> rfl
  | numberInteger n =>
    rcases asRead_integer (F := F) n with ⟨hn, -⟩ | hn <;> (rw [hn]; rfl)
  | numberFloat hx =>
    rw [asRead_float hx]
    rfl
  | _ => rfl

omit [PriceFloat Price F] in
/-- The integer of the value that is read back. -/
theorem getLongLong_asRead {j : Json F} (h : j.WellFormed finite) :
    getLongLong (asRead j) = getLongLong j := by
  cases h with
  | numberInteger n =>
    rcases asRead_integer (F := F) n with ⟨hn, -⟩ | hn
    · rw [hn, getLongLong, getLongLong, Int64.toInt64_toUInt64]
    · rw [hn]
  | numberFloat hx => rw [asRead_float hx]
  | _ => rfl

/-- The `float` of the value that is read back. -/
theorem getFloat_asRead [LawfulPriceFloat Price F] {j : Json F} (h : j.WellFormed finite) :
    getFloat Price (asRead j) = getFloat Price j := by
  cases h with
  | numberInteger n =>
    rcases asRead_integer (F := F) n with ⟨hn, hle⟩ | hn
    · rw [hn, getFloat, getFloat, LawfulPriceFloat.ofUnsigned_toUInt64 n hle]
    · rw [hn]
  | numberFloat hx => rw [asRead_float hx]
  | _ => rfl

omit [PriceFloat Price F] in
/-- The string of the value that is read back. -/
theorem getString_asRead {j : Json F} (h : j.WellFormed finite) : getString (asRead j) = getString j := by
  cases h with
  | numberInteger n =>
    rcases asRead_integer (F := F) n with ⟨hn, -⟩ | hn <;> rw [hn]
    rfl
  | numberFloat hx => rw [asRead_float hx]
  | _ => rfl

omit [PriceFloat Price F] in
/-- The comparison of the value that is read back with an integer. -/
theorem eq_integer_asRead (n : Int64) {j : Json F} (h : j.WellFormed finite) :
    eq (asRead j) (.numberInteger n) = eq j (.numberInteger n) := by
  cases h with
  | numberInteger m =>
    rcases asRead_integer (F := F) m with ⟨hm, -⟩ | hm
    · rw [hm, eq, eq, Int64.toInt64_toUInt64]
    · rw [hm]
  | numberFloat hx => rw [asRead_float hx]
  | _ => rfl

omit [PriceFloat Price F] in
/-- The loop over the value that is read back. -/
theorem elements_asRead {j : Json F} (h : j.WellFormed finite) :
    elements (asRead j) = (elements j).map asRead := by
  cases h with
  | array _ => rw [asRead, elements, elements, asReadElements_eq_map]
  | object _ _ _ =>
    rw [asRead_object, elements, elements, List.map_map, List.map_map]
    rfl
  | numberInteger n =>
    have hn := asRead_integer (F := F) n
    rw [show elements (numberInteger n : Json F) = [numberInteger n] from rfl, List.map_singleton]
    rcases hn with ⟨hn, -⟩ | hn <;> rw [hn] <;> rfl
  | numberFloat hx =>
    rw [show elements (numberFloat _ : Json F) = [numberFloat _] from rfl, List.map_singleton,
      asRead_float hx]
    rfl
  | _ => rfl

end Json

end Typhoon
