import ExpandTree.Text

/-!
Decimals: a sign and a coefficient below ninety-six bits over a power of ten of at most
twenty-eight. The scale is kept as written, so 1.0 and 1.00 are different values that are
numerically equal; so are the two zeros, for a zero keeps the sign of what was rounded to it.
-/
namespace ExpandTree

/-- Two to the ninety-sixth. -/
def Decimal.bound : Nat := 79228162514264337593543950336

structure Decimal where
  negative : Bool
  coefficient : Nat
  scale : Nat
  coefficient_lt : coefficient < Decimal.bound
  scale_le : scale ≤ 28

namespace Decimal

open Text

/-- The decimal with this sign, coefficient and scale, if they are in bounds. -/
def ofParts? (negative : Bool) (coefficient scale : Nat) : Option Decimal :=
  if h : coefficient < bound ∧ scale ≤ 28 then
    some ⟨negative, coefficient, scale, h.1, h.2⟩
  else none

/-- The coefficient under its sign. -/
def numerator (d : Decimal) : Int := if d.negative then -(d.coefficient : Int) else d.coefficient

/-- What the numerator is divided by. -/
def denominator (d : Decimal) : Nat := Nat.pow 10 d.scale

/-- Numeric equality. -/
def equals (a b : Decimal) : Bool :=
  a.numerator * b.denominator == b.numerator * a.denominator

instance : BEq Decimal := ⟨equals⟩

theorem beq_def (a b : Decimal) :
    (a == b) = (a.numerator * b.denominator == b.numerator * a.denominator) := rfl

theorem beq_self (d : Decimal) : (d == d) = true := by
  simp [beq_def]

theorem beq_comm (a b : Decimal) : (a == b) = (b == a) := by
  rw [beq_def, beq_def, Bool.eq_iff_iff, beq_iff_eq, beq_iff_eq, eq_comm]

/-- As many digits after the point as the scale says, and at least one before it. -/
def unsignedText (coefficient scale : Nat) : List Char :=
  let digits := natText coefficient
  if scale = 0 then digits
  else
    let padded := List.replicate (scale + 1 - digits.length) '0' ++ digits
    padded.take (padded.length - scale) ++ '.' :: padded.drop (padded.length - scale)

def text (d : Decimal) : List Char :=
  let unsigned := unsignedText d.coefficient d.scale
  if d.negative then '-' :: unsigned else unsigned

end Decimal

end ExpandTree
