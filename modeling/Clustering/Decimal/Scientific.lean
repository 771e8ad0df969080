/-!
# Scientific notation

A number written as one digit, a point, a fixed count of further digits and a power of ten.  The
digits are those of the exact value of the number, rounded to nearest with ties to the even digit;
the exponent has a sign and at least two digits.

`Magnitude` is an exact positive quotient.  `Magnitude.order` is the power of ten below it, found by
counting digits, and `Magnitude.significand` its rounding to a count of digits.
-/

namespace Clustering.Decimal

/-- The quotient rounded to the nearest integer, a tie going to the even one. -/
def roundQuotient (num den : Nat) : Nat :=
  let q := num / den
  let r := num % den
  if 2 * r < den then q
  else if den < 2 * r then q + 1
  else if q % 2 = 0 then q else q + 1

/-- A positive number as a quotient of integers. -/
structure Magnitude where
  num : Nat
  den : Nat

namespace Magnitude

/-- The number times a power of ten. -/
def scale (m : Magnitude) (power : Int) : Magnitude :=
  if 0 ≤ power then ⟨m.num * Nat.pow 10 power.toNat, m.den⟩
  else ⟨m.num, m.den * Nat.pow 10 (-power).toNat⟩

/-- Count of decimal digits. -/
def digitCount (n : Nat) : Nat := (Nat.toDigits 10 n).length

/-- The exponent of the largest power of ten that is not above the number. -/
def order (m : Magnitude) : Int :=
  if m.den ≤ m.num then (digitCount (m.num / m.den) : Int) - 1
  else
    let d := digitCount (m.den / m.num)
    if m.den ≤ m.num * Nat.pow 10 (d - 1) then 1 - (d : Int) else -(d : Int)

/-- The number rounded to one digit and `places` more, with its power of ten.  A number that
rounds up to the next power of ten takes that power's exponent. -/
def significand (m : Magnitude) (places : Nat) : Nat × Int :=
  let e := m.order
  let s := m.scale ((places : Int) - e)
  let n := roundQuotient s.num s.den
  if n < Nat.pow 10 (places + 1) then (n, e) else (n / 10, e + 1)

end Magnitude

/-- An exponent with its sign and at least two digits. -/
def exponentText (e : Int) : String :=
  let digits := toString e.natAbs
  (if e < 0 then "e-" else "e+") ++ (if digits.length < 2 then "0" ++ digits else digits)

/-- The digits of a significand with a point after the first. -/
def pointed (places n : Nat) : String :=
  let digits := Nat.toDigits 10 n
  let padded := List.replicate (places + 1 - digits.length) '0' ++ digits
  if places = 0 then String.ofList padded
  else String.ofList (padded.take 1 ++ '.' :: padded.drop 1)

/-- The exact size of a finite machine number, which is zero if the numerator is. -/
def magnitude (x : Float) : Magnitude :=
  let bits := x.toBits.toNat
  let field := bits / 0x10_0000_0000_0000 % 0x800
  let fraction := bits % 0x10_0000_0000_0000
  let m := if field = 0 then fraction else fraction + 0x10_0000_0000_0000
  let e := if field = 0 then 1 else field
  if 1075 ≤ e then ⟨m * Nat.pow 2 (e - 1075), 1⟩ else ⟨m, Nat.pow 2 (1075 - e)⟩

/-- A machine number in scientific notation with `places` digits after the point. -/
def scientific (places : Nat) (x : Float) : String :=
  let sign := if x.toBits < 0x8000000000000000 then "" else "-"
  if x.isNaN then sign ++ "nan"
  else if x.isInf then sign ++ "inf"
  else
    let m := magnitude x
    let (n, e) := if m.num = 0 then (0, 0) else m.significand places
    sign ++ pointed places n ++ exponentText e

end Clustering.Decimal
