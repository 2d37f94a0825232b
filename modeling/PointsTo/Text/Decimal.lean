/-!
# Decimal numbers rounded to binary ones

A decimal number is digits times a power of ten. Rounding it takes the
nearest number of 53 binary digits times a power of two, and of two that
are equally near the even one. Powers of two below the least are not
used, and a number that would need one above the greatest is out of range.
-/

namespace PointsTo

namespace Text

/-- Digits times a power of ten. -/
structure Decimal where
  digits : Nat
  exponent : Int
  deriving DecidableEq, Repr, Inhabited

/-- Digits times a power of two. -/
structure Binary where
  digits : Nat
  exponent : Int
  deriving DecidableEq, Repr, Inhabited

namespace Binary

/-- The integral part. -/
def floor (b : Binary) : Nat :=
  if 0 ≤ b.exponent then b.digits <<< b.exponent.toNat else b.digits >>> (-b.exponent).toNat

/-- How many binary digits are kept. -/
def precision : Nat := 53

/-- The least exponent. -/
def leastExponent : Int := -1074

/-- Numbers from the power of two with this exponent on are out of range. -/
def rangeExponent : Nat := 1024

end Binary

namespace Decimal

/-- The decimal as a fraction of natural numbers. -/
def fraction (d : Decimal) : Nat × Nat :=
  if 0 ≤ d.exponent then (d.digits * Nat.pow 10 d.exponent.toNat, 1)
  else (d.digits, Nat.pow 10 (-d.exponent).toNat)

/-- The integer nearest to a fraction, the even one of two. -/
def nearestInteger (num den : Nat) : Nat :=
  let q := num / den
  let twice := 2 * (num % den)
  if den < twice || (twice = den && q % 2 = 1) then q + 1 else q

/-- The fraction as a multiple of a power of two, rounded. -/
def scaled (num den : Nat) (exponent : Int) : Binary :=
  { digits :=
      if 0 ≤ exponent then nearestInteger num (den <<< exponent.toNat)
      else nearestInteger (num <<< (-exponent).toNat) den
    exponent }

/-- The exponent that leaves so many binary digits as are kept. -/
def exponentFor (num den : Nat) : Int :=
  let guess : Int := (num.log2 : Int) - den.log2 - Binary.precision
  let tooSmall :=
    if 0 ≤ guess then (den <<< guess.toNat) <<< Binary.precision ≤ num
    else den <<< Binary.precision ≤ num <<< (-guess).toNat
  max Binary.leastExponent (if tooSmall then guess + 1 else guess)

/-- The number rounded, unless it is out of range. Numbers whose size
alone decides are not multiplied out. -/
def round? (d : Decimal) : Option Binary :=
  let size := (Nat.toDigits 10 d.digits).length + d.exponent
  if d.digits = 0 ∨ size < -400 then some ⟨0, 0⟩
  else if 400 < size then none
  else
    let (num, den) := d.fraction
    let b := scaled num den (exponentFor num den)
    if b.digits.log2 + b.exponent < Binary.rangeExponent then some b else none

end Decimal

end Text

end PointsTo
