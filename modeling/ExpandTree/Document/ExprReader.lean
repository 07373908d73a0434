import ExpandTree.Document.PathReader

/-!
Reading expressions. A star is a string, every other expression an object, and the fields that it
has decide what it describes.
-/
namespace ExpandTree

open Json (Fields)

namespace Expr

mutual

/-- The first of the fields literal, property, binary, unary, call, search, aggregate and groupby
that is present decides what an object describes. -/
def ofJson : Json → Reads Expr
  | .string s => if s = "*" then .ok .star else .error (.notExpression (.string s))
  | .object fields =>
      if let some value := fields.lookup "literal" then (Literal.ofJson value).map .literal
      else if (fields.lookup "property").isSome then do
        let parent ← absentOr (ofField "parent" fields)
        let name ← stringField "property" fields
        return match parent with
          | none => .property name
          | some parent => .member parent name
      else if (fields.lookup "binary").isSome then do
        let keyword ← stringField "binary" fields
        match BinaryOp.ofKeyword? keyword with
        | none => throw (.unknownBinaryOp keyword)
        | some op =>
            let left ← present "left" (ofField "left" fields)
            let right ← present "right" (ofField "right" fields)
            return .binary op left right
      else if (fields.lookup "unary").isSome then do
        let keyword ← stringField "unary" fields
        match UnaryOp.ofKeyword? keyword with
        | none => throw (.unknownUnaryOp keyword)
        | some op => return .unary op (← present "operand" (ofField "operand" fields))
      else if (fields.lookup "call").isSome then do
        let arguments ← absentOr (listOfField "args" fields)
        let function ← stringField "call" fields
        return .call function (arguments.getD [])
      else if (fields.lookup "search").isSome then do
        return .search (← stringField "search" fields)
      else match aggregateOfField "aggregate" fields with
        | some items => items.map .aggregate
        | none =>
            match listOfField "groupby" fields with
            | none => .error (.unrecognisedExpression (.object fields))
            | some properties => do
                let child ← absentOr (ofField "then" fields)
                let properties ← properties
                return match child with
                  | none => .groupBy properties
                  | some child => .groupByThen properties child
  | v => .error (.notExpression v)
  termination_by structural v => v

/-- The reading of a field as an expression, if the field is present. -/
def ofField (key : String) : List (String × Json) → Option (Reads Expr)
  | [] => none
  | (k, v) :: rest => if key = k then some (ofJson v) else ofField key rest
  termination_by structural fields => fields

def listOfJson : Json → Reads (List Expr)
  | .array items => ofItems items
  | _ => .error .notExpressions
  termination_by structural v => v

def listOfField (key : String) : List (String × Json) → Option (Reads (List Expr))
  | [] => none
  | (k, v) :: rest => if key = k then some (listOfJson v) else listOfField key rest
  termination_by structural fields => fields

def ofItems : List Json → Reads (List Expr)
  | [] => .ok []
  | v :: rest => do
      let e ← ofJson v
      let es ← ofItems rest
      return e :: es
  termination_by structural items => items

def aggregateOfJson : Json → Reads (List Aggregation)
  | .array items => aggregateOfItems items
  | _ => .error (.notArray "aggregate")
  termination_by structural v => v

def aggregateOfField (key : String) : List (String × Json) → Option (Reads (List Aggregation))
  | [] => none
  | (k, v) :: rest => if key = k then some (aggregateOfJson v) else aggregateOfField key rest
  termination_by structural fields => fields

def aggregateOfItems : List Json → Reads (List Aggregation)
  | [] => .ok []
  | v :: rest => do
      let item ← aggregationOfJson v
      let items ← aggregateOfItems rest
      return item :: items
  termination_by structural items => items

/-- Only the count may leave its expression out. -/
def aggregationOfJson : Json → Reads Aggregation
  | .object fields => do
      let keyword ← stringField "with" fields
      match AggregationMethod.ofKeyword? keyword with
      | none => throw (.unknownMethod keyword)
      | some method =>
          let expression ←
            match ofField "expr" fields with
            | some reading => reading
            | none =>
                if method = .count then .ok groupCount else .error .aggregateWithoutExpression
          let name ← stringField "as" fields
          return ⟨expression, method, name⟩
  | _ => .error (.itemNotObject .aggregate)
  termination_by structural v => v

end

/-- The fused lookups find what a lookup followed by a reading finds. -/
theorem ofField_eq (key : String) (fields : Fields) :
    ofField key fields = (fields.lookup key).map ofJson := by
  induction fields with
  | nil => rfl
  | cons field rest ih =>
    obtain ⟨k, v⟩ := field
    rw [ofField, lookup_cons, ih]
    split <;> rfl

theorem listOfField_eq (key : String) (fields : Fields) :
    listOfField key fields = (fields.lookup key).map listOfJson := by
  induction fields with
  | nil => rfl
  | cons field rest ih =>
    obtain ⟨k, v⟩ := field
    rw [listOfField, lookup_cons, ih]
    split <;> rfl

theorem aggregateOfField_eq (key : String) (fields : Fields) :
    aggregateOfField key fields = (fields.lookup key).map aggregateOfJson := by
  induction fields with
  | nil => rfl
  | cons field rest ih =>
    obtain ⟨k, v⟩ := field
    rw [aggregateOfField, lookup_cons, ih]
    split <;> rfl

end Expr

end ExpandTree
