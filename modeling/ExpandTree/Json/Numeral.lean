import ExpandTree.Json
import ExpandTree.Json.Fault
import ExpandTree.Text

/-!
Reading JSON numbers. Digits are gathered into a 64-bit significand while they fit; dropped digits
before the point raise the exponent and dropped digits behind it count for nothing. Significand and
power of ten are rounded one after the other, so long numerals may miss the nearest double.
-/
namespace ExpandTree.Json

open Text

/-- Gathers digits while the number stays within the limit; the digits left over come second. -/
def gatherDigits (limit : Nat) (n : Nat) : List Char → Nat × List Char
  | [] => (n, [])
  | c :: rest =>
      let next := 10 * n + digitValue c
      if next ≤ limit then gatherDigits limit next rest else (n, c :: rest)

/-- The largest word of sixty-four bits. -/
def significandLimit : Nat := 18446744073709551615

/-- The largest signed word of thirty-two bits. -/
def exponentLimit : Nat := 2147483647

/-- The double for a significand below two to the sixty-fourth and a power of ten; `none` when it
is too large. Ten to the 308th is the largest power used at once, and two divisions by it leave
nothing of any significand. -/
def scaled? (significand : Nat) (exponent : Int) : Option Double :=
  let start := Double.nearest false significand 1
  if significand = 0 then some start
  else if 308 < exponent then none
  else if 0 ≤ exponent then
    let product := start.mul (Double.powerOfTen exponent.toNat)
    if product.isFinite then some product else none
  else if -308 ≤ exponent then some (start.div (Double.powerOfTen (-exponent).toNat))
  else if -616 ≤ exponent then
    some ((start.div (Double.powerOfTen 308)).div (Double.powerOfTen (-exponent - 308).toNat))
  else some Double.zero

def double (negative : Bool) (significand : Nat) (exponent : Int) (rest : List Char) :
    Read (Number × List Char) :=
  match scaled? significand exponent with
  | some d => .ok (.double (if negative then d.neg else d), rest)
  | none => faultAt .numberOutOfRange rest 0

/-- Integers of 64 bits stay integers; minus zero and longer ones become doubles. -/
def whole (negative : Bool) (significand : Nat) : Number :=
  if !negative then .integer significand
  else if 0 < significand ∧ significand ≤ 9223372036854775808 then .integer (-(significand : Int))
  else .double (Double.nearest true significand 1)

/-- What follows the exponent letter. An exponent beyond 32 bits stops the reading at the digit
that goes beyond, if it is positive and the significand is not zero. -/
def exponentPart (negative : Bool) (significand : Nat) (exponent : Int) (text : List Char) :
    Read (Number × List Char) :=
  let (down, unsigned) := splitSign text
  let digits := unsigned.takeWhile Char.isDigit
  let rest := unsigned.dropWhile Char.isDigit
  let (size, left) := gatherDigits exponentLimit 0 digits
  if unsigned = [] then faultAt .endInValue [] 0
  else if digits = [] then faultAt .invalidNumber unsigned 1
  else if left ≠ [] ∧ significand ≠ 0 ∧ !down then
    faultAt .numberOutOfRange (left.tail ++ rest) 0
  else double negative significand (if down then exponent - size else exponent + size) rest

/-- What follows the point. -/
def fractionPart (negative : Bool) (significand : Nat) (exponent : Int) (text : List Char) :
    Read (Number × List Char) :=
  let digits := text.takeWhile Char.isDigit
  let (gathered, left) := gatherDigits significandLimit significand digits
  let lowered := exponent - (digits.length - left.length : Nat)
  if text = [] then faultAt .endInValue [] 1
  else if digits = [] then faultAt .invalidNumber text 1
  else match text.dropWhile Char.isDigit with
    | [] => double negative gathered lowered []
    | c :: rest =>
        if isExponentMark c then exponentPart negative gathered lowered rest
        else double negative gathered lowered (c :: rest)

/-- An unsigned number and what follows it. -/
def numeral (negative : Bool) : List Char → Read (Number × List Char)
  | [] => faultAt .endInValue [] 0
  | first :: text =>
      let digits := (first :: text).takeWhile Char.isDigit
      let (significand, left) := gatherDigits significandLimit 0 digits
      let dropped : Int := left.length
      if digits = [] then faultAt .invalidNumber (first :: text) 1
      else if first = '0' ∧ 1 < digits.length then faultAt .invalidNumber text 1
      else match (first :: text).dropWhile Char.isDigit with
        | '.' :: rest => fractionPart negative significand dropped rest
        | [] =>
            if left = [] then .ok (whole negative significand, [])
            else double negative significand dropped []
        | c :: rest =>
            if isExponentMark c then exponentPart negative significand dropped rest
            else if left = [] then .ok (whole negative significand, c :: rest)
            else double negative significand dropped (c :: rest)

end ExpandTree.Json
