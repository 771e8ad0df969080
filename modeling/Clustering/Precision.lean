import Clustering.Scalar

/-!
# Precisions

The two element widths that a model accepts, and the machine numbers that each one stands for.
-/

namespace Clustering

/-- The width of the numbers that a data set is made of. -/
inductive Precision where
  | single
  | double
deriving DecidableEq

namespace Precision

/-- The name that a precision is reported by. -/
def name : Precision → String
  | single => "float32"
  | double => "float64"

/-- The precision with a given code: zero is single, every other code is double. -/
def ofCode : Nat → Precision
  | 0 => single
  | _ => double

/-- The machine numbers of a precision. -/
def Machine : Precision → Type
  | single => Float32
  | double => Float

instance : (p : Precision) → Scalar (Machine p)
  | single => inferInstanceAs (Scalar Float32)
  | double => inferInstanceAs (Scalar Float)

instance : (p : Precision) → DecidableEq (Machine p)
  | single => inferInstanceAs (DecidableEq Float32)
  | double => inferInstanceAs (DecidableEq Float)

instance : (p : Precision) → Widening (Machine p) Float
  | single => inferInstanceAs (Widening Float32 Float)
  | double => inferInstanceAs (Widening Float Float)

end Precision

end Clustering
