/-!
Decimal numbers of any size, and which of them double precision cannot tell from zero or from
infinity. Nothing is rounded on the way to either answer.
-/

namespace RhoFrontend

/-- The number `coefficient · 10 ^ exponent`. -/
structure Decimal where
  coefficient : Int
  exponent : Int
deriving DecidableEq, Repr

namespace Decimal

/-- The distance from zero as numerator and denominator. An exponent that lies beyond every double
is cut short, which leaves the number beyond them. -/
def size (value : Decimal) : Nat × Nat :=
  let digits := value.coefficient.natAbs
  let lowest : Int := -(digits.log2 + 1100)
  let exponent := max lowest (min 400 value.exponent)
  (digits * Nat.pow 10 exponent.toNat, Nat.pow 10 (-exponent).toNat)

/-- Whether zero is the nearest double. Half of the least positive one still goes to zero. -/
def underflows (value : Decimal) : Bool :=
  let (numerator, denominator) := value.size
  numerator * Nat.pow 2 1075 ≤ denominator

/-- Whether the number is so far from zero that only an infinity is near it. A number halfway
between the largest double and the next power of two is. -/
def overflows (value : Decimal) : Bool :=
  let (numerator, denominator) := value.size
  (Nat.pow 2 1024 - Nat.pow 2 970) * denominator ≤ numerator

end Decimal

end RhoFrontend
