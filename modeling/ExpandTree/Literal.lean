import ExpandTree.Decimal
import ExpandTree.Double

/-!
Constants of expressions and key segments. Strings are kept without quotes or escapes. Equality is
by value: doubles compare as numbers and decimals across scales.
-/
namespace ExpandTree

inductive Literal where
  | null
  | boolean (value : Bool)
  | int64 (value : Int64)
  | double (value : Double)
  | decimal (value : Decimal)
  | string (value : String)

namespace Literal

def equals : Literal → Literal → Bool
  | .null, .null => true
  | .boolean a, .boolean b => a == b
  | .int64 a, .int64 b => a == b
  | .double a, .double b => a == b
  | .decimal a, .decimal b => a == b
  | .string a, .string b => a == b
  | _, _ => false

instance : BEq Literal := ⟨equals⟩

end Literal

end ExpandTree
