import ExpandTree.Double.Shortest
import ExpandTree.Text

/-!
The written form of a double: its shortest digits, set out in place or with an exponent. A layout
says up to where numbers are written in place, how an exponent is signed, and which way a tie
between two shortest forms goes.
-/
namespace ExpandTree.Double

open Text

/-- How finite numbers are set out. `placesFrom` is the least power of ten whose numbers are
written in place; in every layout ten to the sixteenth is the first that is not. -/
structure Layout where
  placesFrom : Int
  plusSign : Bool
  tie : Tie
  deriving DecidableEq

namespace Layout

/-- In query text numbers are written in place from 0.0001 on. -/
def query : Layout := ⟨-4, false, .up⟩

/-- In JSON text numbers are written in place from 0.00001 on, and large exponents show a plus. -/
def json : Layout := ⟨-5, true, .toEven⟩

end Layout

/-- Digits in place; a whole number keeps one zero after its point. -/
def placed (form : DecimalForm) : List Char :=
  let digits := natText form.digits
  if 0 ≤ form.exponent then
    digits ++ List.replicate form.exponent.toNat '0' ++ ['.', '0']
  else
    let fraction := (-form.exponent).toNat
    let padded := List.replicate (fraction + 1 - digits.length) '0' ++ digits
    let whole := padded.length - fraction
    padded.take whole ++ '.' :: padded.drop whole

/-- One digit before the point, none of it when no digit follows, and the exponent. -/
def scientific (plusSign : Bool) (power : Int) (digits : List Char) : List Char :=
  let sign := if power < 0 then ['-'] else if plusSign then ['+'] else []
  let mantissa :=
    match digits with
    | first :: second :: rest => first :: '.' :: second :: rest
    | short => short
  mantissa ++ 'e' :: sign ++ natText power.natAbs

def finiteText (layout : Layout) (d : Double) : List Char :=
  let form := shortest layout.tie d
  let digits := natText form.digits
  let power : Int := form.exponent + digits.length - 1
  let unsigned :=
    if form.digits = 0 ∨ layout.placesFrom ≤ power ∧ power < 16 then placed form
    else scientific layout.plusSign power digits
  if d.isNegative then '-' :: unsigned else unsigned

/-- What stands for a number that has no digits. -/
def specialText (d : Double) : List Char :=
  if d.isNaN then ['N', 'a', 'N']
  else if d.isNegative then ['-', 'i', 'n', 'f']
  else ['i', 'n', 'f']

def text (layout : Layout) (d : Double) : List Char :=
  if d.isFinite then finiteText layout d else specialText d

end ExpandTree.Double
