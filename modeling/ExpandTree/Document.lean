import ExpandTree.Double.Layout
import ExpandTree.Json.Printer
import ExpandTree.Token

/-!
Tree documents: expand trees as JSON values. Absent options have no field, a path is a string of
identifiers unless a segment has keys, and every object stands in the order of its field names.
-/
namespace ExpandTree

def stringOf (text : List Char) : Json := .string (String.ofList text)

/-- Doubles without digits are written by name in an object, as decimals are by their text. -/
def Literal.toJson : Literal → Json
  | .null => .null
  | .boolean b => .boolean b
  | .int64 n => Json.integer n
  | .double d =>
      if d.isFinite then .number (.double d)
      else .object [("double", stringOf d.specialText)]
  | .decimal d => .object [("decimal", stringOf d.text)]
  | .string s => .string s

def KeyValue.toJson (key : KeyValue) : Json :=
  .object [("name", (key.name.map Json.string).getD .null), ("value", key.value.toJson)]

def Segment.toJson (s : Segment) : Json :=
  match s.keys with
  | none => .string s.identifier
  | some keys =>
      .object [("keys", .array (keys.map KeyValue.toJson)), ("segment", .string s.identifier)]

def Path.toJson (p : Path) : Json :=
  if p.isKeyed then .array (p.segments.map Segment.toJson) else stringOf p.display

namespace Expr

mutual

def toJson : Expr → Json
  | .literal value => .object [("literal", value.toJson)]
  | .property name => .object [("property", .string name)]
  | .member parent name => .object [("parent", parent.toJson), ("property", .string name)]
  | .binary op left right =>
      .object [("binary", .string op.keyword), ("left", left.toJson), ("right", right.toJson)]
  | .unary op operand => .object [("operand", operand.toJson), ("unary", .string op.keyword)]
  | .call function arguments =>
      .object [("args", .array (toJsons arguments)), ("call", .string function)]
  | .star => .string "*"
  | .search term => .object [("search", .string term)]
  | .aggregate items => .object [("aggregate", .array (aggregationsToJson items))]
  | .groupBy properties => .object [("groupby", .array (toJsons properties))]
  | .groupByThen properties child =>
      .object [("groupby", .array (toJsons properties)), ("then", child.toJson)]
  termination_by structural e => e

def toJsons : List Expr → List Json
  | [] => []
  | e :: rest => e.toJson :: toJsons rest
  termination_by structural es => es

def aggregationsToJson : List Aggregation → List Json
  | [] => []
  | ⟨e, method, name⟩ :: rest =>
      .object [("as", .string name), ("expr", e.toJson), ("with", .string method.keyword)] ::
        aggregationsToJson rest
  termination_by structural items => items

end

end Expr

def OrderItem.toJson (item : OrderItem) : Json :=
  .object [("direction", .string item.direction.keyword), ("expr", item.expression.toJson)]

def Computed.toJson (c : Computed) : Json :=
  .object [("as", .string c.name), ("expr", c.expression.toJson)]

def Levels.toJson : Levels → Json
  | .depth n => Json.integer n
  | .max => .string "max"

namespace SelectItem

mutual

def toJson : SelectItem → Json
  | ⟨path, none⟩ => .object [("path", path.toJson)]
  | ⟨path, some items⟩ => .object [("path", path.toJson), ("select", .array (toJsons items))]
  termination_by structural item => item

def toJsons : List SelectItem → List Json
  | [] => []
  | item :: rest => item.toJson :: toJsons rest
  termination_by structural items => items

end

end SelectItem

def selectJson (select : Select) : Json := .array (SelectItem.toJsons select)

def computeJson (items : List Computed) : Json := .array (items.map Computed.toJson)

def orderByJson (items : List OrderItem) : Json := .array (items.map OrderItem.toJson)

def applyJson (steps : List Expr) : Json := .array (Expr.toJsons steps)

/-- The field for a part of a term, if the part is present. -/
def TermPart.field (part : TermPart) (value : Option Json) : Option (String × Json) :=
  value.map fun v => (part.word, v)

namespace Term

/-- The present parts of a term, in the order of their words. -/
def partFields (path : Path) (m : Modifiers) (select : Option Select) (expand : Option Json) :
    Json.Fields :=
  [TermPart.apply.field (m.apply.map applyJson),
   TermPart.compute.field (m.compute.map computeJson),
   TermPart.count.field (m.count.map .boolean),
   TermPart.expand.field expand,
   TermPart.filter.field (m.filter.map Expr.toJson),
   TermPart.levels.field (m.levels.map Levels.toJson),
   TermPart.orderBy.field (m.orderBy.map orderByJson),
   TermPart.path.field (some path.toJson),
   TermPart.search.field (m.search.map Expr.toJson),
   TermPart.select.field (select.map selectJson),
   TermPart.skip.field (m.skip.map Json.integer),
   TermPart.top.field (m.top.map Json.integer)].filterMap id

mutual

def toJson : Term → Json
  | ⟨path, modifiers, select, none⟩ => .object (partFields path modifiers select none)
  | ⟨path, modifiers, select, some terms⟩ =>
      .object (partFields path modifiers select (some (.array (toJsons terms))))
  termination_by structural t => t

def toJsons : List Term → List Json
  | [] => []
  | t :: rest => t.toJson :: toJsons rest
  termination_by structural terms => terms

end

end Term

def clauseJson (clause : Clause) : Json := .array (Term.toJsons clause)

/-- What a writer of documents puts for a token it does not handle. -/
def TokenKind.toJson (kind : TokenKind) : Json := .object [("unsupported", .string kind.name)]

end ExpandTree
