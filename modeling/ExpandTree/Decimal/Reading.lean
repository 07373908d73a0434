import ExpandTree.Decimal

/-!
Reading a decimal from text. Digits fill the coefficient as long as it stays below ninety-six bits
and the scale at most twenty-eight; the first fraction digit beyond that rounds the coefficient and
the digits after it count for nothing, though they are still checked. Underscores may stand between
digits. Text that is not plain may have an exponent, which moves the point.
-/
namespace ExpandTree.Decimal

open Text

inductive ReadingError where
  | empty
  | noDigits
  | twoPoints
  | leadingSeparator
  | unknownCharacter
  | tooManyDigits
  | roundedOver
  | malformedExponent
  | exponentTooLarge (exponent : Nat)
  | productTooLarge
  deriving DecidableEq

def ReadingError.message : ReadingError → String
  | .empty => "Invalid decimal: empty"
  | .noDigits => "Invalid decimal: no digits found"
  | .twoPoints => "Invalid decimal: two decimal points"
  | .leadingSeparator => "Invalid decimal: must start lead with a number"
  | .unknownCharacter => "Invalid decimal: unknown character"
  | .tooManyDigits => "Invalid decimal: overflow from too many digits"
  | .roundedOver => "Invalid decimal: overflow from mantissa after rounding"
  | .malformedExponent => "Failed to parse"
  | .exponentTooLarge n =>
      "Scale exceeds the maximum precision allowed: " ++ toString n ++ " > 28"
  | .productTooLarge => "Number exceeds maximum value that can be represented."

/-- The fault of a character that is no digit, with no separator allowed where it stands. -/
def characterError (c : Char) : ReadingError :=
  if c = '.' then .twoPoints
  else if c = '_' then .leadingSeparator
  else .unknownCharacter

/-- From this coefficient on the next digit may leave the range of a 64-bit word. -/
def wordLimit : Nat := 18446744073709551615 / 10 - 255

/-- What may follow the rounding digit: digits and separators. -/
def checkTail : List Char → Except ReadingError Unit
  | [] => .ok ()
  | c :: rest =>
      if c.isDigit ∨ c = '_' then checkTail rest
      else .error (if c = '.' then .twoPoints else .unknownCharacter)

/-- Rounds up on five and more. A coefficient that reaches ninety-six bits gives up one place. -/
def roundUp (coefficient scale digit : Nat) : Except ReadingError (Nat × Nat) :=
  if digit < 5 then .ok (coefficient, scale)
  else if coefficient + 1 < bound then .ok (coefficient + 1, scale)
  else if scale = 0 then .error .roundedOver
  else .ok ((coefficient + 1 + 4) / 10, scale - 1)

/-- The first fraction digit that has no place; a separator there stands for zero. -/
def roundAt (coefficient scale : Nat) (c : Char) (rest : List Char) :
    Except ReadingError (Nat × Nat) := do
  let digit ←
    if c.isDigit then .ok (digitValue c)
    else if c = '_' then .ok 0
    else .error (characterError c)
  let rounded ← roundUp coefficient scale digit
  checkTail rest
  return rounded

/-- Gathers coefficient and scale; `inFraction` and `seen` tell whether the point and whether a
digit or separator came before. At full scale a separator is passed over only when the coefficient
outgrew a word before its last digit. -/
def gather (coefficient scale : Nat) (inFraction seen : Bool) :
    List Char → Except ReadingError (Nat × Nat)
  | [] => if seen then .ok (coefficient, scale) else .error .noDigits
  | c :: rest =>
      if inFraction ∧ scale = 28 ∧ ¬(c = '_' ∧ wordLimit ≤ coefficient / 10) then
        roundAt coefficient scale c rest
      else if c.isDigit then
        let next := 10 * coefficient + digitValue c
        if next < bound then
          gather next (if inFraction then scale + 1 else 0) inFraction true rest
        else if inFraction then roundAt coefficient scale c rest
        else .error .tooManyDigits
      else if c = '.' ∧ !inFraction then gather coefficient scale true seen rest
      else if c = '_' ∧ seen then gather coefficient scale inFraction seen rest
      else .error (characterError c)

/-- A zero takes no sign from its text. -/
def ofSigned (negative : Bool) (coefficient scale : Nat) : Except ReadingError Decimal :=
  match ofParts? (negative && coefficient != 0) coefficient scale with
  | some d => .ok d
  | none => .error .tooManyDigits

/-- Digits with an optional sign in front. -/
def ofPlain : List Char → Except ReadingError Decimal
  | [] => .error .empty
  | '-' :: rest => do
      let (coefficient, scale) ← gather 0 0 false false rest
      ofSigned true coefficient scale
  | text => do
      let (coefficient, scale) ←
        gather 0 0 false false (if text.head? = some '+' then text.tail else text)
      ofSigned false coefficient scale

/-- A whole number of at most thirty-two bits, with an optional plus. -/
def exponentSize? (text : List Char) : Option Nat :=
  let digits := if text.head? = some '+' then text.tail else text
  if digits ≠ [] ∧ digits.all Char.isDigit ∧ digitsValue digits ≤ 4294967295 then
    some (digitsValue digits)
  else none

/-- The coefficient at a lower scale, a half rounding up. -/
def rescaled (d : Decimal) (scale : Nat) : Nat :=
  let unit := Nat.pow 10 (d.scale - scale)
  (2 * d.coefficient + unit) / (2 * unit)

/-- Divides by ten to the exponent; places beyond the twenty-eighth are rounded away. The sign
stays, also where nothing else does. -/
def shiftDown (d : Decimal) (exponent : Nat) : Except ReadingError Decimal :=
  if 28 < exponent then .error (.exponentTooLarge exponent)
  else
    let parts :=
      if 28 < d.scale + exponent then (d.rescaled (28 - exponent), 28)
      else (d.coefficient, d.scale + exponent)
    match ofParts? d.negative parts.1 parts.2 with
    | some shifted => .ok shifted
    | none => .error .productTooLarge

/-- Multiplies by ten to the exponent. Within the scale the point moves; beyond it the result is a
whole number. -/
def shiftUp (d : Decimal) (exponent : Nat) : Except ReadingError Decimal :=
  if d.scale < exponent ∧ 28 < exponent then .error (.exponentTooLarge exponent)
  else
    let parts :=
      if exponent ≤ d.scale then (d.coefficient, d.scale - exponent)
      else (d.coefficient * Nat.pow 10 (exponent - d.scale), 0)
    match ofParts? d.negative parts.1 parts.2 with
    | some shifted => .ok shifted
    | none => .error .productTooLarge

/-- A plain decimal, the letter and an exponent. -/
def ofScientific (base exponent : List Char) : Except ReadingError Decimal := do
  let d ← ofPlain base
  match exponent with
  | '-' :: size =>
      match exponentSize? size with
      | some n => shiftDown d n
      | none => .error .malformedExponent
  | size =>
      match exponentSize? size with
      | some n => shiftUp d n
      | none => .error .malformedExponent

def ofText (text : List Char) : Except ReadingError Decimal :=
  match ofPlain text with
  | .ok d => .ok d
  | .error e =>
      match text.dropWhile (!isExponentMark ·) with
      | _ :: exponent => ofScientific (text.takeWhile (!isExponentMark ·)) exponent
      | [] => .error e

end ExpandTree.Decimal
