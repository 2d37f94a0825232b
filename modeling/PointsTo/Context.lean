/-!
# Context numbers

Calling contexts are numbered by 64-bit integers. Sums and products of
block sizes stop at the largest of them instead of wrapping around.
-/

namespace PointsTo

namespace Context

/-- The largest context number. -/
def largest : Int64 := Int64.maxValue

/-- The sum, or the largest number if it does not fit. -/
def satAdd (a b : Int64) : Int64 := if largest - b < a then largest else a + b

/-- The product, or the largest number if it does not fit. -/
def satMul (a b : Int64) : Int64 := if a ≠ 0 ∧ largest / a < b then largest else a * b

end Context

end PointsTo
