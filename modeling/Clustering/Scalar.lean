/-!
# Scalars

The arithmetic that the clustering algorithms run on.  Every algorithm of this library is written
once, over `Scalar`, and can be read in two ways: in machine floating point, where `+` is not
associative and every operation rounds, and in exact arithmetic, where the same definitions are
about an ordered field.  A definition therefore states the order of its additions, and no law of
arithmetic is part of the class.

Data are held in one scalar type and totals are kept in a wider one; `Widening` relates the two.
-/

namespace Clustering

/-- Operations on the numbers that data are made of.  There are no laws: the instances for machine
numbers round, the exact ones do not. -/
class Scalar (α : Type) extends
    Zero α, One α, NatCast α, Add α, Sub α, Mul α, Div α, Neg α, LT α, LE α where
  /-- Strict comparison can be run. -/
  decLt : DecidableLT α
  /-- Comparison can be run. -/
  decLe : DecidableLE α
  /-- The value of a 64-bit word. -/
  ofWord : UInt64 → α := fun w => (w.toNat : α)
  sqrt : α → α
  log : α → α
  /-- The value that no distance exceeds. -/
  infinity : α
  /-- Whether a value is strictly below infinity.  Where numbers have no infinity it always is. -/
  belowInfinity : α → Bool
  isFinite : α → Bool
  /-- The largest finite value. -/
  largest : α
  /-- The largest value below one. -/
  belowOne : α
  /-- Bytes that one stored value takes. -/
  bytes : Nat

instance Scalar.decidableLT {α : Type} [Scalar α] : DecidableLT α := Scalar.decLt

instance Scalar.decidableLE {α : Type} [Scalar α] : DecidableLE α := Scalar.decLe

/-- Moving between the type that data are held in and the one that totals are kept in. -/
class Widening (α : Type) (ω : outParam Type) where
  widen : α → ω
  narrow : ω → α

export Widening (widen narrow)

section Total

variable {α : Type} [Scalar α]

/-- The sum of a list, added up from zero in list order. -/
def total (xs : List α) : α := xs.foldl (· + ·) 0

@[simp] theorem total_nil : total ([] : List α) = 0 := rfl

end Total

/-! ### Machine numbers -/

instance : Scalar Float32 where
  zero := 0
  one := 1
  natCast := Float32.ofNat
  ofWord := UInt64.toFloat32
  decLt := inferInstance
  decLe := inferInstance
  sqrt := Float32.sqrt
  log := Float32.log
  infinity := Float32.ofBits 0x7f800000
  belowInfinity v := decide (v < Float32.ofBits 0x7f800000)
  isFinite := Float32.isFinite
  largest := Float32.ofBits 0x7f7fffff
  belowOne := Float32.ofBits 0x3f7fffff
  bytes := 4

instance : Scalar Float where
  zero := 0
  one := 1
  natCast := Float.ofNat
  ofWord := UInt64.toFloat
  decLt := inferInstance
  decLe := inferInstance
  sqrt := Float.sqrt
  log := Float.log
  infinity := Float.ofBits 0x7ff0000000000000
  belowInfinity v := decide (v < Float.ofBits 0x7ff0000000000000)
  isFinite := Float.isFinite
  largest := Float.ofBits 0x7fefffffffffffff
  belowOne := Float.ofBits 0x3fefffffffffffff
  bytes := 8

instance : Widening Float32 Float where
  widen := Float32.toFloat
  narrow := Float.toFloat32

instance : Widening Float Float where
  widen v := v
  narrow v := v

end Clustering
