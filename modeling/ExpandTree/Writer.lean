import ExpandTree.QueryText
import ExpandTree.Token

/-!
A writing session: query text produced piece by piece under one style. The session remembers which
grammar it is in and words operators by it; a search switches to the search grammar and back again
when it is written.
-/
namespace ExpandTree

structure Writer where
  style : Style := {}
  grammar : Grammar := .plain
  deriving DecidableEq

namespace Writer

/-- A piece of text that depends on the session and may change it. -/
abbrev Piece := StateM Writer (List Char)

/-- The word of a binary operator, in upper case within a search. -/
def operatorWord (w : Writer) (op : BinaryOp) : List Char :=
  match w.grammar with
  | .search => op.keyword.toList.map Char.toUpper
  | .plain => op.keyword.toList

/-- A unary operator in front of the text of its operand. A search has no negation sign. -/
def signed (w : Writer) (op : UnaryOp) (operand : List Char) : List Char :=
  match w.grammar, op with
  | .search, _ => "NOT ".toList ++ operand
  | .plain, .negate => '-' :: operand
  | .plain, .not => "not ".toList ++ operand

mutual

def expr : Expr → Piece
  | .literal value => return value.text
  | .property name => return name.toList
  | .member parent name => do
      let parent ← expr parent
      return parent ++ '/' :: name.toList
  | .binary op left right => do
      let leftText ← expr left
      let rightText ← expr right
      let writer ← get
      return operandText left leftText ++ ' ' :: writer.operatorWord op ++
        ' ' :: operandText right rightText
  | .unary op operand => do
      let text ← expr operand
      let writer ← get
      return writer.signed op (operandText operand text)
  | .call function arguments => do
      let arguments ← exprs arguments
      return function.toList ++ parenthesized (Text.join [','] arguments)
  | .star => return ['*']
  | .search term => return searchTermText term.toList
  | .aggregate items => do
      let items ← aggregations items
      return "aggregate".toList ++ parenthesized (Text.join [','] items)
  | .groupBy properties => do
      let properties ← exprs properties
      return "groupby".toList ++ parenthesized (parenthesized (Text.join [','] properties))
  | .groupByThen properties child => do
      let properties ← exprs properties
      let child ← expr child
      return "groupby".toList ++
        parenthesized (parenthesized (Text.join [','] properties) ++ ',' :: child)
  termination_by structural e => e

def exprs : List Expr → StateM Writer (List (List Char))
  | [] => return []
  | e :: rest => do
      let text ← expr e
      let texts ← exprs rest
      return text :: texts
  termination_by structural es => es

def aggregations : List Aggregation → StateM Writer (List (List Char))
  | [] => return []
  | ⟨_, .count, name⟩ :: rest => do
      let texts ← aggregations rest
      return ("$count as ".toList ++ name.toList) :: texts
  | ⟨e, method, name⟩ :: rest => do
      let text ← expr e
      let texts ← aggregations rest
      return (text ++ " with ".toList ++ method.keyword.toList ++ " as ".toList ++ name.toList) ::
        texts
  termination_by structural items => items

end

/-- Writes an expression in the search grammar and returns to the grammar from before. -/
def search (e : Expr) : Piece := do
  let outer ← modifyGet fun w => (w.grammar, { w with grammar := .search })
  let text ← expr e
  modify ({ · with grammar := outer })
  return text

def orderItem (item : OrderItem) : Piece := do
  let text ← expr item.expression
  let writer ← get
  return match item.direction with
    | .descending => text ++ " desc".toList
    | .ascending => if writer.style.explicitAscending then text ++ " asc".toList else text

def computed (c : Computed) : Piece := do
  let text ← expr c.expression
  return text ++ " as ".toList ++ c.name.toList

def path (p : Path) : Piece := return p.text

def select (s : Select) : Piece := return selectText s

def orderBy (items : List OrderItem) : Piece := do
  return Text.join [','] (← items.mapM orderItem)

def compute (items : List Computed) : Piece := do
  return Text.join [','] (← items.mapM computed)

def apply (steps : List Expr) : Piece := do
  return Text.join ['/'] (← exprs steps)

/-- The text of an option, if it is present. -/
def option {α : Type} (part : TermPart) (value : Option α) (write : α → Piece) :
    StateM Writer (List (List Char)) :=
  match value with
  | none => return []
  | some value => do
      let text ← write value
      return [assigned part text]

/-- The present options up to apply, one after the other. -/
def options (m : Modifiers) (selected : Option Select) : StateM Writer (List (List Char)) := do
  let filter ← option .filter m.filter expr
  let ordering ← option .orderBy m.orderBy orderBy
  let top ← option .top m.top (return int64Text ·)
  let skip ← option .skip m.skip (return int64Text ·)
  let count ← option .count m.count (return boolText ·)
  let levels ← option .levels m.levels (return ·.text)
  let searched ← option .search m.search search
  let selected ← option .select selected select
  let computes ← option .compute m.compute compute
  let applied ← option .apply m.apply apply
  return filter ++ ordering ++ top ++ skip ++ count ++ levels ++ searched ++ selected ++
    computes ++ applied

mutual

def term : Term → Piece
  | ⟨path, modifiers, selected, none⟩ => do
      let options ← options modifiers selected
      return withOptions path options
  | ⟨path, modifiers, selected, some nested⟩ => do
      let options ← options modifiers selected
      let nested ← terms nested
      return withOptions path (options ++ [assigned .expand (Text.join [','] nested)])
  termination_by structural t => t

def terms : List Term → StateM Writer (List (List Char))
  | [] => return []
  | t :: rest => do
      let text ← term t
      let texts ← terms rest
      return text :: texts
  termination_by structural ts => ts

end

def clause (c : Clause) : Piece := do
  return Text.join [','] (← terms c)

/-- Writes every type of token. -/
def visitor : Visitor Piece where
  unsupported := fun kind => return kind.placeholder
  expr := expr
  path := path
  orderItem := orderItem
  select := select
  selectItem := fun item => return item.text
  compute := compute
  computed := computed
  clause := clause
  term := term

/-- A request to a session: to write a token as it comes, or an expression as a search. -/
inductive Call where
  | accept (token : Token)
  | search (e : Expr)

def Call.piece : Call → Piece
  | .accept token => token.accept visitor
  | .search e => Writer.search e

end Writer

end ExpandTree
