import ExpandTree.Double.Rounding
import ExpandTree.Text

/-!
Reading a double from text: a sign, digits with an optional point and an optional exponent, rounded
correctly, or one of the words for infinity and NaN in any case. Magnitudes beyond the largest
number read as infinity. No blanks and no separators are allowed.
-/
namespace ExpandTree.Double

open Text

inductive ReadingError where
  | empty
  | malformed
  deriving DecidableEq

def ReadingError.message : ReadingError → String
  | .empty => "cannot parse float from empty string"
  | .malformed => "invalid float literal"

/-- The value of `significand` times ten to the `exponent`. A power of ten that would push every
nonzero significand with that many digits out of range is not computed. -/
def ofDecimal (negative : Bool) (significand : Nat) (exponent : Int) : Double :=
  let size : Int := (natText significand).length
  if significand = 0 ∨ size + exponent < -400 then ofPattern negative 0
  else if 400 < size + exponent then ofPattern negative infinityPattern
  else
    let quotient := timesPower 10 exponent (significand, 1)
    nearest negative quotient.1 quotient.2

/-- An exponent part: nothing, or the letter, an optional sign and at least one digit. -/
def exponentPart : List Char → Option Int
  | [] => some 0
  | c :: rest =>
      let (negative, digits) := splitSign rest
      if isExponentMark c ∧ digits ≠ [] ∧ digits.all Char.isDigit then
        let size : Int := digitsValue digits
        some (if negative then -size else size)
      else none

/-- Digits around an optional point, at least one of them. -/
def ofUnsigned? (negative : Bool) (text : List Char) : Option Double :=
  let whole := text.takeWhile Char.isDigit
  let (fraction, rest) :=
    match text.dropWhile Char.isDigit with
    | '.' :: rest => (rest.takeWhile Char.isDigit, rest.dropWhile Char.isDigit)
    | rest => ([], rest)
  if whole = [] ∧ fraction = [] then none
  else
    (exponentPart rest).map fun exponent =>
      ofDecimal negative (digitsValue (whole ++ fraction)) (exponent - fraction.length)

def ofText (text : List Char) : Except ReadingError Double :=
  if text = [] then .error .empty
  else
    let (negative, unsigned) := splitSign text
    let word := String.ofList (unsigned.map Char.toLower)
    if word = "inf" ∨ word = "infinity" then .ok (ofPattern negative infinityPattern)
    else if word = "nan" then .ok (if negative then nan.neg else nan)
    else match ofUnsigned? negative unsigned with
      | some d => .ok d
      | none => .error .malformed

end ExpandTree.Double
