import ExpandTree.Document.Field

/-!
Reading literals, key values and paths. A path may be spelled as a string with slashes or as an
array of segments; null, the empty string and the empty array spell no path at all.
-/
namespace ExpandTree

open Json (Fields)

namespace Literal

def ofFields (fields : Fields) : Reads Literal :=
  match fields.lookup "double" with
  | some _ => do
      let text ← stringField "double" fields
      match Double.ofText text.toList with
      | .ok d => return .double d
      | .error cause => throw (.malformedDouble text cause)
  | none => do
      let text ← stringField "decimal" fields
      match Decimal.ofText text.toList with
      | .ok d => return .decimal d
      | .error cause => throw (.malformedDecimal text cause)

/-- A number that is no 64-bit integer is a double. -/
def ofJson : Json → Reads Literal
  | .null => .ok .null
  | .boolean b => .ok (.boolean b)
  | .number n =>
      match n.int64? with
      | some i => .ok (.int64 i)
      | none => .ok (.double n.toDouble)
  | .string s => .ok (.string s)
  | .object fields => ofFields fields
  | .array _ => .error .arrayLiteral

end Literal

namespace KeyValue

def nameOf : Option Json → Reads (Option String)
  | some (.string name) => .ok (some name)
  | some .null | none => .ok none
  | some _ => .error .keyNameNotString

def ofJson : Json → Reads KeyValue
  | .object fields => do
      let name ← nameOf (fields.lookup "name")
      match fields.lookup "value" with
      | none => throw .keyWithoutValue
      | some v => return ⟨name, ← Literal.ofJson v⟩
  | _ => .error .keyNotObject

end KeyValue

namespace Segment

def keysOf : Option Json → Reads (Option (List KeyValue))
  | some (.array keys) => (keys.mapM KeyValue.ofJson).map some
  | some _ => .error (.notArray "keys")
  | none => .ok none

def ofJson : Json → Reads Segment
  | .string s => .ok (ofIdentifier s)
  | .object fields => do
      let identifier ← stringField "segment" fields
      let keys ← keysOf (fields.lookup "keys")
      return { ofIdentifier identifier with keys }
  | v => .error (.notSegment v)

end Segment

namespace Path

/-- The pieces between slashes. -/
def pieces : List Char → List (List Char)
  | [] => [[]]
  | c :: rest =>
      if c = '/' then [] :: pieces rest
      else match pieces rest with
        | piece :: more => (c :: piece) :: more
        | [] => [[c]]

/-- The path that a string spells; the empty string spells none. -/
def ofString (s : String) : Reads (Option Path) :=
  let found := pieces s.toList
  if s = "" then .ok none
  else if found.any List.isEmpty then .error (.emptySegment s)
  else .ok (ofIdentifiers? (found.map String.ofList))

/-- A path, or none for null, the empty string and the empty array. -/
def ofJson : Json → Reads (Option Path)
  | .null => .ok none
  | .string s => ofString s
  | .array segments => (segments.mapM Segment.ofJson).map ofSegments?
  | v => .error (.notPath v)

end Path

end ExpandTree
