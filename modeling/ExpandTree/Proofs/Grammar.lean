import ExpandTree.Proofs.ExprReading

/-!
The grammar of tree documents, said of JSON values alone: what a literal, a path, an expression, a
select item and a term look like. A document is read exactly when it is a term or an array of
terms.
-/
namespace ExpandTree

open Json (Fields)

namespace Json

def IsArrayOf (P : Json → Prop) (v : Json) : Prop := ∃ items, v = .array items ∧ ∀ w ∈ items, P w

/-- A string that is the text of something that can be read. -/
def IsTextOf {ε α : Type} (read : List Char → Except ε α) (v : Json) : Prop :=
  ∃ s a, v = .string s ∧ read s.toList = .ok a

/-- Numbers need no object, but doubles and decimals may be given by their text. -/
def IsLiteral : Json → Prop
  | .null | .boolean _ | .number _ | .string _ => True
  | .object fields =>
      match fields.lookup "double" with
      | some v => v.IsTextOf Double.ofText
      | none => ∃ v ∈ fields.lookup "decimal", v.IsTextOf Decimal.ofText
  | .array _ => False

def IsKey : Json → Prop
  | .object fields =>
      (∀ name ∈ fields.lookup "name", name = .null ∨ ∃ s, name = .string s) ∧
        ∃ v ∈ fields.lookup "value", v.IsLiteral
  | _ => False

def IsSegment : Json → Prop
  | .string _ => True
  | .object fields =>
      (∃ s, fields.lookup "segment" = some (.string s)) ∧
        ∀ keys ∈ fields.lookup "keys", keys.IsArrayOf IsKey
  | _ => False

/-- A path that is there: a string with no empty piece between slashes, or segments. -/
def IsPath : Json → Prop
  | .string s => s ≠ "" ∧ [] ∉ s.toList.splitOn '/'
  | .array segments => segments ≠ [] ∧ ∀ segment ∈ segments, segment.IsSegment
  | _ => False

/-- One value of an aggregate step, its expression apart. Only the count may leave it out. -/
def IsAggregation : Json → Prop
  | .object fields =>
      (∃ method : AggregationMethod, fields.lookup "with" = some (.string method.keyword) ∧
        (fields.lookup "expr" = none → method = .count)) ∧
      ∃ name, fields.lookup "as" = some (.string name)
  | _ => False

/-- Of the fields that decide what an object describes, the first that is present counts. -/
inductive IsExpr : Json → Prop where
  | star : IsExpr (.string "*")
  | literal {fields : Fields} {v : Json} : fields.lookup "literal" = some v → v.IsLiteral →
      IsExpr (.object fields)
  | property {fields : Fields} {name : String} : Leads "property" fields →
      fields.lookup "property" = some (.string name) →
      (∀ parent ∈ fields.lookup "parent", IsExpr parent) → IsExpr (.object fields)
  | binary {fields : Fields} {op : BinaryOp} {left right : Json} : Leads "binary" fields →
      fields.lookup "binary" = some (.string op.keyword) → fields.lookup "left" = some left →
      IsExpr left → fields.lookup "right" = some right → IsExpr right → IsExpr (.object fields)
  | unary {fields : Fields} {op : UnaryOp} {operand : Json} : Leads "unary" fields →
      fields.lookup "unary" = some (.string op.keyword) →
      fields.lookup "operand" = some operand → IsExpr operand → IsExpr (.object fields)
  | call {fields : Fields} {function : String} {arguments : List Json} : Leads "call" fields →
      fields.lookup "call" = some (.string function) →
      ItemsOf (fields.lookup "args") arguments → (∀ v ∈ arguments, IsExpr v) →
      IsExpr (.object fields)
  | search {fields : Fields} {term : String} : Leads "search" fields →
      fields.lookup "search" = some (.string term) → IsExpr (.object fields)
  | aggregate {fields : Fields} {items : List Json} : Leads "aggregate" fields →
      fields.lookup "aggregate" = some (.array items) → (∀ item ∈ items, item.IsAggregation) →
      (∀ item : Fields, .object item ∈ items → ∀ v ∈ item.lookup "expr", IsExpr v) →
      IsExpr (.object fields)
  | groupBy {fields : Fields} {properties : List Json} : Leads "groupby" fields →
      fields.lookup "groupby" = some (.array properties) → (∀ v ∈ properties, IsExpr v) →
      (∀ child ∈ fields.lookup "then", IsExpr child) → IsExpr (.object fields)

/-- A direction that is a string says which; any other is taken for none. -/
def IsOrderItem : Json → Prop
  | .object fields =>
      (∃ e ∈ fields.lookup "expr", e.IsExpr) ∧
        ∀ s, fields.lookup "direction" = some (.string s) → s = "asc" ∨ s = "desc"
  | _ => False

def IsComputed : Json → Prop
  | .object fields =>
      (∃ e ∈ fields.lookup "expr", e.IsExpr) ∧ ∃ name, fields.lookup "as" = some (.string name)
  | _ => False

/-- A select item is its path alone, or an object that may hold a select of its own. -/
inductive IsSelectItem : Json → Prop where
  | path {s : String} : IsPath (.string s) → IsSelectItem (.string s)
  | item {fields : Fields} {path : Json} {items : List Json} :
      fields.lookup "path" = some path → path.IsPath → ItemsOf (fields.lookup "select") items →
      (∀ item ∈ items, IsSelectItem item) → IsSelectItem (.object fields)

/-- A whole number of sixty-four bits. -/
def IsInt64 (v : Json) : Prop := ∃ n : Int64, v = integer n

/-- Each option that is there is of its own form. -/
structure HasOptions (fields : Fields) : Prop where
  filter : ∀ v ∈ fields.lookup "filter", v.IsExpr
  orderBy : ∀ v ∈ fields.lookup "orderby", v.IsArrayOf IsOrderItem
  top : ∀ v ∈ fields.lookup "top", v.IsInt64
  skip : ∀ v ∈ fields.lookup "skip", v.IsInt64
  count : ∀ v ∈ fields.lookup "count", ∃ b, v = .boolean b
  levels : ∀ v ∈ fields.lookup "levels", v.IsInt64 ∨ v = .string "max"
  search : ∀ v ∈ fields.lookup "search", v.IsExpr
  select : ∀ v ∈ fields.lookup "select", v.IsArrayOf IsSelectItem
  compute : ∀ v ∈ fields.lookup "compute", v.IsArrayOf IsComputed
  apply : ∀ v ∈ fields.lookup "apply", v.IsArrayOf IsExpr

inductive IsTerm : Json → Prop where
  | term {fields : Fields} {path : Json} {terms : List Json} :
      (∀ key ∈ fields.map Prod.fst, key ∈ TermPart.words) → fields.lookup "path" = some path →
      path.IsPath → HasOptions fields → ItemsOf (fields.lookup "expand") terms →
      (∀ t ∈ terms, IsTerm t) → IsTerm (.object fields)

/-- A document: a term or an array of terms. -/
def IsClause (v : Json) : Prop := v.IsTerm ∨ v.IsArrayOf IsTerm

end Json

end ExpandTree
