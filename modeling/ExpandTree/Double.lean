/-!
Binary64 numbers by their bit patterns: a sign bit, eleven exponent bits and fifty-two fraction
bits. A finite number is a whole significand times a power of two. Equality is the numeric one: a
NaN equals nothing, itself included, and the two zeros are equal.
-/
namespace ExpandTree

structure Double where
  bits : UInt64

namespace Double

/-- Two to the fifty-second: as many fractions share an exponent. -/
def fractionCount : Nat := 4503599627370496

/-- Two to the sixty-third: the weight of the sign bit. -/
def signWeight : Nat := 9223372036854775808

/-- The pattern of positive infinity; the patterns above it, below the sign bit, are NaNs. -/
def infinityPattern : Nat := 2047 * fractionCount

/-- The bits below the sign, in whose order the absolute values lie. -/
def pattern (d : Double) : Nat := d.bits.toNat % signWeight

def isNegative (d : Double) : Bool := signWeight ≤ d.bits.toNat

def isNaN (d : Double) : Bool := infinityPattern < d.pattern

def isFinite (d : Double) : Bool := d.pattern < infinityPattern

def isZero (d : Double) : Bool := d.pattern == 0

def ofPattern (negative : Bool) (pattern : Nat) : Double :=
  ⟨UInt64.ofNat (if negative then signWeight + pattern else pattern)⟩

def zero : Double := ofPattern false 0

def infinity : Double := ofPattern false infinityPattern

def nan : Double := ofPattern false (infinityPattern + fractionCount / 2)

def neg (d : Double) : Double := ofPattern (!d.isNegative) d.pattern

/-- The whole number that a finite value counts in units of two to the `exponent`. -/
def significand (d : Double) : Nat :=
  if d.pattern < fractionCount then d.pattern else fractionCount + d.pattern % fractionCount

def exponent (d : Double) : Int :=
  (max 1 (d.pattern / fractionCount) : Nat) - 1075

def equals (a b : Double) : Bool :=
  !a.isNaN && !b.isNaN && (a.bits == b.bits || a.isZero && b.isZero)

instance : BEq Double := ⟨equals⟩

theorem beq_def (a b : Double) :
    (a == b) = (!a.isNaN && !b.isNaN && (a.bits == b.bits || a.isZero && b.isZero)) := rfl

/-- A number equals itself exactly when it is one. -/
theorem beq_self (d : Double) : (d == d) = !d.isNaN := by
  simp [beq_def]

theorem beq_comm (a b : Double) : (a == b) = (b == a) := by
  rw [Bool.eq_iff_iff]
  simp only [beq_def, Bool.and_eq_true, Bool.or_eq_true, beq_iff_eq]
  constructor <;> rintro ⟨⟨ha, hb⟩, h⟩ <;>
    exact ⟨⟨hb, ha⟩, h.imp Eq.symm And.symm⟩

end Double

end ExpandTree
