import ExpandTree.Double

/-!
Rounding of exact quotients to binary64. A quotient goes to the nearest number, a tie to the one
with an even pattern, and what lies half a step or more above the largest number to infinity.
Product and quotient of two numbers are the exact ones, rounded.
-/
namespace ExpandTree.Double

/-- The whole number nearest to a quotient; a half goes to the even neighbour. -/
def halfToEven (num den : Nat) : Nat :=
  let whole := num / den
  let twice := 2 * (num % den)
  if den < twice ∨ twice = den ∧ whole % 2 = 1 then whole + 1 else whole

/-- A quotient times a power of a base, as a quotient again. -/
def timesPower (base : Nat) (exponent : Int) (quotient : Nat × Nat) : Nat × Nat :=
  if 0 ≤ exponent then (quotient.1 * Nat.pow base exponent.toNat, quotient.2)
  else (quotient.1, quotient.2 * Nat.pow base (-exponent).toNat)

/-- The exponent of the greatest power of two that a positive quotient reaches. -/
def binaryLog (num den : Nat) : Int :=
  let guess : Int := (Nat.log2 num : Int) - Nat.log2 den
  let scaled := timesPower 2 (-guess) (num, den)
  if scaled.2 ≤ scaled.1 then guess else guess - 1

/-- The pattern of the number nearest to a quotient. Patterns of neighbours differ by one, also
across powers of two, so a significand that rounds up to the next power carries by itself. -/
def nearestPattern (num den : Nat) : Nat :=
  if num = 0 then 0
  else
    let unit := max (binaryLog num den - 52) (-1074)
    let scaled := timesPower 2 (-unit) (num, den)
    let steps := (unit + 1074).toNat * fractionCount + halfToEven scaled.1 scaled.2
    min steps infinityPattern

def nearest (negative : Bool) (num den : Nat) : Double :=
  ofPattern negative (nearestPattern num den)

/-- The number nearest to a whole number; only zero itself gives zero. -/
def ofInt (n : Int) : Double := nearest (n < 0) n.natAbs 1

/-- The number nearest to ten to a power. -/
def powerOfTen (n : Nat) : Double := nearest false (Nat.pow 10 n) 1

/-- The product of two finite numbers. -/
def mul (a b : Double) : Double :=
  let product := timesPower 2 (a.exponent + b.exponent) (a.significand * b.significand, 1)
  nearest (a.isNegative != b.isNegative) product.1 product.2

/-- The quotient of two finite numbers, the second of them not zero. -/
def div (a b : Double) : Double :=
  let quotient := timesPower 2 (a.exponent - b.exponent) (a.significand, b.significand)
  nearest (a.isNegative != b.isNegative) quotient.1 quotient.2

/-- The exact absolute value of a finite number, as a quotient. -/
def magnitude (d : Double) : Nat × Nat := timesPower 2 d.exponent (d.significand, 1)

end ExpandTree.Double
