import Mathlib.Data.Int.Notation

/-!
# The messages between the aggregators and the aligner

Each tick that an aggregator sends, and that the aligner receives, is a JSON object with the fields
below. `T` is the label of the tick and `t` the time of the trade that it closes at, both in
milliseconds; `p` is that trade's price, a C++ `float` on both sides, kept here as an arbitrary type.
A build without `DEBUG` neither sends nor reads `t`.
-/

namespace Typhoon

/-- A tick on its way from an aggregator to the aligner. -/
structure Message (Price : Type*) where
  T : ℤ
  id : ℤ
  p : Price
  t : ℤ
  deriving DecidableEq

end Typhoon
