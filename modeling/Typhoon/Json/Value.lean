import Mathlib.Data.Int.Notation
import Mathlib.Data.List.Basic
import Mathlib.Data.Set.Defs
import Typhoon.Library.SortedMap
import Typhoon.Library.Utf8

/-!
# JSON values

The values of the JSON library that the three programs exchange their messages with. `number_float_t` is a
parameter, with the operations that the library asks of it (`NumberFloat`). A value that the library can
write as text is `WellFormed`: its strings are UTF-8, and its objects are in the order of their keys as in a
`std::map`. What comes back from the text is the value `asRead`.
-/

namespace Typhoon

/-- The operations on `number_float_t` that the library uses. -/
class NumberFloat (F : Type*) where
  /-- `std::strtod` on the bytes of a number. -/
  strtod : List UInt8 → F
  /-- `std::isfinite`. -/
  isfinite : F → Bool
  /-- `std::signbit`. -/
  signbit : F → Bool
  /-- The test `value == 0`. -/
  isZero : F → Bool
  /-- `-value`. -/
  neg : F → F
  /-- The digits of a positive number, and the power of ten that they are multiplied with. -/
  grisu2 : F → List UInt8 × ℤ
  /-- The comparison `==`. -/
  eq : F → F → Bool
  /-- The conversion of a `number_unsigned_t`. -/
  ofUnsigned : UInt64 → F
  /-- The conversion of a `number_integer_t`. -/
  ofInteger : Int64 → F
  /-- `static_cast<long long int>`. -/
  toLongLong : F → Int64

/-- A value of `basic_json`. An object is the list of its members in the order of their keys. -/
inductive Json (F : Type*)
  | null
  | boolean (b : Bool)
  | numberInteger (n : Int64)
  | numberUnsigned (n : UInt64)
  | numberFloat (x : F)
  | string (s : List UInt8)
  | array (a : List (Json F))
  | object (o : List (List UInt8 × Json F))

namespace Json

variable {F : Type*}

/-! ## Comparison -/

mutual

/-- `operator==`. Numbers of two types are compared as the number that one of them is converted to. -/
def eq [NumberFloat F] : Json F → Json F → Bool
  | .array a, .array b => eqElements a b
  | .object a, .object b => eqMembers a b
  | .null, .null => true
  | .string s, .string t => s == t
  | .boolean b, .boolean c => b == c
  | .numberInteger m, .numberInteger n => m == n
  | .numberUnsigned m, .numberUnsigned n => m == n
  | .numberFloat x, .numberFloat y => NumberFloat.eq x y
  | .numberInteger m, .numberFloat y => NumberFloat.eq (NumberFloat.ofInteger m) y
  | .numberFloat x, .numberInteger n => NumberFloat.eq x (NumberFloat.ofInteger n)
  | .numberUnsigned m, .numberFloat y => NumberFloat.eq (NumberFloat.ofUnsigned m) y
  | .numberFloat x, .numberUnsigned n => NumberFloat.eq x (NumberFloat.ofUnsigned n)
  | .numberUnsigned m, .numberInteger n => m.toInt64 == n
  | .numberInteger m, .numberUnsigned n => m == n.toInt64
  | _, _ => false

/-- The comparison of two arrays. -/
def eqElements [NumberFloat F] : List (Json F) → List (Json F) → Bool
  | [], [] => true
  | j :: a, k :: b => eq j k && eqElements a b
  | _, _ => false

/-- The comparison of two objects. -/
def eqMembers [NumberFloat F] : List (List UInt8 × Json F) → List (List UInt8 × Json F) → Bool
  | [], [] => true
  | (s, j) :: a, (t, k) :: b => s == t && eq j k && eqMembers a b
  | _, _ => false

end

/-! ## Well-formed values -/

/-- A value whose strings are UTF-8, whose objects are in the order of their keys, and whose floating-point
numbers are among `floats`. -/
inductive WellFormed (floats : Set F) : Json F → Prop
  | null : WellFormed floats .null
  | boolean (b : Bool) : WellFormed floats (.boolean b)
  | numberInteger (n : Int64) : WellFormed floats (.numberInteger n)
  | numberUnsigned (n : UInt64) : WellFormed floats (.numberUnsigned n)
  | numberFloat {x : F} (hx : x ∈ floats) : WellFormed floats (.numberFloat x)
  | string {s : List UInt8} (hs : Utf8.Valid s) : WellFormed floats (.string s)
  | array {a : List (Json F)} (ha : ∀ j ∈ a, WellFormed floats j) : WellFormed floats (.array a)
  | object {o : List (List UInt8 × Json F)} (hsorted : SortedMap.Sorted o)
      (hkeys : ∀ m ∈ o, Utf8.Valid m.1) (hvalues : ∀ m ∈ o, WellFormed floats m.2) :
      WellFormed floats (.object o)

/-- With more floating-point numbers, more values are well formed. -/
theorem WellFormed.mono {floats floats' : Set F} (hsub : ∀ x ∈ floats, x ∈ floats') {j : Json F}
    (h : WellFormed floats j) : WellFormed floats' j := by
  induction h with
  | null => exact .null
  | boolean b => exact .boolean b
  | numberInteger n => exact .numberInteger n
  | numberUnsigned n => exact .numberUnsigned n
  | numberFloat hx => exact .numberFloat (hsub _ hx)
  | string hs => exact .string hs
  | array _ ih => exact .array ih
  | object hsorted hkeys _ ih => exact .object hsorted hkeys ih

/-- The numbers that are no infinity and no NaN. -/
def finite [NumberFloat F] : Set F := {x | NumberFloat.isfinite x = true}

/-! ## The value that is read back -/

mutual

/-- What the text of a value stands for: a signed integer that is not negative is an unsigned one there,
and a number that is not finite is written as `null`. -/
def asRead [NumberFloat F] : Json F → Json F
  | .numberInteger n => if 0 ≤ n then .numberUnsigned n.toUInt64 else .numberInteger n
  | .numberFloat x => if NumberFloat.isfinite x then .numberFloat x else .null
  | .array a => .array (asReadElements a)
  | .object o => .object (asReadMembers o)
  | j => j

/-- The elements of an array, as they are read. -/
def asReadElements [NumberFloat F] : List (Json F) → List (Json F)
  | [] => []
  | j :: a => asRead j :: asReadElements a

/-- The members of an object, as they are read. -/
def asReadMembers [NumberFloat F] : List (List UInt8 × Json F) → List (List UInt8 × Json F)
  | [] => []
  | (s, j) :: o => (s, asRead j) :: asReadMembers o

end

end Json

end Typhoon
