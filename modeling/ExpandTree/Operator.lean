/-!
The operators, aggregation methods and sort directions of query expressions, each with the keyword
that is written for it in query text and in tree documents, and with the words that are read. The
two tables agree: a word is read as what has it for its keyword, and no other word is read.
-/
namespace ExpandTree

inductive BinaryOp where
  | or
  | and
  | equal
  | notEqual
  | greaterThan
  | greaterThanOrEqual
  | lessThan
  | lessThanOrEqual
  | has
  | memberOf
  | add
  | subtract
  | multiply
  | divide
  | modulo
  deriving DecidableEq

namespace BinaryOp

def keyword : BinaryOp → String
  | .or => "or"
  | .and => "and"
  | .equal => "eq"
  | .notEqual => "ne"
  | .greaterThan => "gt"
  | .greaterThanOrEqual => "ge"
  | .lessThan => "lt"
  | .lessThanOrEqual => "le"
  | .has => "has"
  | .memberOf => "in"
  | .add => "add"
  | .subtract => "sub"
  | .multiply => "mul"
  | .divide => "div"
  | .modulo => "mod"

def ofKeyword? : String → Option BinaryOp
  | "or" => some .or
  | "and" => some .and
  | "eq" => some .equal
  | "ne" => some .notEqual
  | "gt" => some .greaterThan
  | "ge" => some .greaterThanOrEqual
  | "lt" => some .lessThan
  | "le" => some .lessThanOrEqual
  | "has" => some .has
  | "in" => some .memberOf
  | "add" => some .add
  | "sub" => some .subtract
  | "mul" => some .multiply
  | "div" => some .divide
  | "mod" => some .modulo
  | _ => none

theorem ofKeyword?_keyword (op : BinaryOp) : ofKeyword? op.keyword = some op := by
  cases op <;> rfl

theorem keyword_of_ofKeyword? {word : String} {op : BinaryOp} (h : ofKeyword? word = some op) :
    op.keyword = word := by
  unfold ofKeyword? at h
  split at h <;> cases h <;> rfl

end BinaryOp

inductive UnaryOp where
  | negate
  | not
  deriving DecidableEq

namespace UnaryOp

def keyword : UnaryOp → String
  | .negate => "-"
  | .not => "not"

def ofKeyword? : String → Option UnaryOp
  | "-" => some .negate
  | "not" => some .not
  | _ => none

theorem ofKeyword?_keyword (op : UnaryOp) : ofKeyword? op.keyword = some op := by
  cases op <;> rfl

theorem keyword_of_ofKeyword? {word : String} {op : UnaryOp} (h : ofKeyword? word = some op) :
    op.keyword = word := by
  unfold ofKeyword? at h
  split at h <;> cases h <;> rfl

end UnaryOp

/-- How an aggregate step condenses the values of a group; `count` counts its members. -/
inductive AggregationMethod where
  | sum
  | min
  | max
  | average
  | countDistinct
  | count
  deriving DecidableEq

namespace AggregationMethod

def keyword : AggregationMethod → String
  | .sum => "sum"
  | .min => "min"
  | .max => "max"
  | .average => "average"
  | .countDistinct => "countdistinct"
  | .count => "count"

def ofKeyword? : String → Option AggregationMethod
  | "sum" => some .sum
  | "min" => some .min
  | "max" => some .max
  | "average" => some .average
  | "countdistinct" => some .countDistinct
  | "count" => some .count
  | _ => none

theorem ofKeyword?_keyword (m : AggregationMethod) : ofKeyword? m.keyword = some m := by
  cases m <;> rfl

theorem keyword_of_ofKeyword? {word : String} {m : AggregationMethod}
    (h : ofKeyword? word = some m) : m.keyword = word := by
  unfold ofKeyword? at h
  split at h <;> cases h <;> rfl

end AggregationMethod

inductive Direction where
  | ascending
  | descending
  deriving DecidableEq

namespace Direction

def keyword : Direction → String
  | .ascending => "asc"
  | .descending => "desc"

def ofKeyword? : String → Option Direction
  | "asc" => some .ascending
  | "desc" => some .descending
  | _ => none

theorem ofKeyword?_keyword (d : Direction) : ofKeyword? d.keyword = some d := by
  cases d <;> rfl

theorem keyword_of_ofKeyword? {word : String} {d : Direction} (h : ofKeyword? word = some d) :
    d.keyword = word := by
  unfold ofKeyword? at h
  split at h <;> cases h <;> rfl

end Direction

end ExpandTree
