import ExpandTree.Double.Rounding

/-!
JSON values. A number keeps apart whether it was written as an integer. An object is a list of
fields; built field by field it stands in the order of its keys, each key once.
-/
namespace ExpandTree

inductive Number where
  | integer (value : Int)
  | double (value : Double)

namespace Number

/-- The value as a 64-bit integer; a double never is one. -/
def int64? : Number → Option Int64
  | .integer n =>
      if Int64.minValue.toInt ≤ n ∧ n ≤ Int64.maxValue.toInt then some (Int64.ofInt n) else none
  | .double _ => none

def toDouble : Number → Double
  | .integer n => Double.ofInt n
  | .double d => d

end Number

inductive Json where
  | null
  | boolean (value : Bool)
  | number (value : Number)
  | string (value : String)
  | array (items : List Json)
  | object (fields : List (String × Json))

namespace Json

abbrev Fields := List (String × Json)

/-- Puts a field at its key's place; an older field of that key gives way. -/
def insertField (key : String) (value : Json) : Fields → Fields
  | [] => [(key, value)]
  | (k, v) :: rest =>
      if key < k then (key, value) :: (k, v) :: rest
      else if key = k then (key, value) :: rest
      else (k, v) :: insertField key value rest

/-- The object of fields that come in any order; of one key the last counts. -/
def ofFields (fields : Fields) : Json :=
  .object (fields.foldl (fun object field => insertField field.1 field.2 object) [])

def integer (n : Int64) : Json := .number (.integer n.toInt)

end Json

end ExpandTree
