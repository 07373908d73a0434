import ExpandTree.Term

/-!
Tokens: the nodes of an expand tree, whatever their type. Every token has a kind; a visitor has a
handler for each type of token and one answer for what it does not handle. The summary of a tree
counts its terms and its longest chain of nested clauses.
-/
namespace ExpandTree

inductive TokenKind where
  | literal
  | endPath
  | binaryOperator
  | unaryOperator
  | functionCall
  | star
  | stringLiteral
  | aggregate
  | groupBy
  | pathSegment
  | orderBy
  | select
  | selectTerm
  | compute
  | computeExpression
  | expand
  | expandTerm
  deriving DecidableEq

namespace TokenKind

def all : List TokenKind :=
  [.literal, .endPath, .binaryOperator, .unaryOperator, .functionCall, .star, .stringLiteral,
   .aggregate, .groupBy, .pathSegment, .orderBy, .select, .selectTerm, .compute,
   .computeExpression, .expand, .expandTerm]

def name : TokenKind → String
  | .literal => "Literal"
  | .endPath => "EndPath"
  | .binaryOperator => "BinaryOperator"
  | .unaryOperator => "UnaryOperator"
  | .functionCall => "FunctionCall"
  | .star => "Star"
  | .stringLiteral => "StringLiteral"
  | .aggregate => "Aggregate"
  | .groupBy => "GroupBy"
  | .pathSegment => "PathSegment"
  | .orderBy => "OrderBy"
  | .select => "Select"
  | .selectTerm => "SelectTerm"
  | .compute => "Compute"
  | .computeExpression => "ComputeExpression"
  | .expand => "Expand"
  | .expandTerm => "ExpandTerm"

/-- What a writer of query text puts for a token it does not handle. -/
def placeholder (kind : TokenKind) : List Char := '<' :: kind.name.toList ++ ['>']

end TokenKind

inductive Token where
  | expr (e : Expr)
  | path (p : Path)
  | orderItem (item : OrderItem)
  | select (s : Select)
  | selectItem (item : SelectItem)
  | compute (items : List Computed)
  | computed (c : Computed)
  | clause (c : Clause)
  | term (t : Term)

def Expr.kind : Expr → TokenKind
  | .literal _ => .literal
  | .property _ => .endPath
  | .member .. => .endPath
  | .binary .. => .binaryOperator
  | .unary .. => .unaryOperator
  | .call .. => .functionCall
  | .star => .star
  | .search _ => .stringLiteral
  | .aggregate _ => .aggregate
  | .groupBy _ => .groupBy
  | .groupByThen .. => .groupBy

/-- Handlers for the types of token. One that is not given answers as `unsupported` does. -/
structure Visitor (α : Type) where
  unsupported : TokenKind → α
  expr : Expr → α := fun e => unsupported e.kind
  path : Path → α := fun _ => unsupported .pathSegment
  orderItem : OrderItem → α := fun _ => unsupported .orderBy
  select : Select → α := fun _ => unsupported .select
  selectItem : SelectItem → α := fun _ => unsupported .selectTerm
  compute : List Computed → α := fun _ => unsupported .compute
  computed : Computed → α := fun _ => unsupported .computeExpression
  clause : Clause → α := fun _ => unsupported .expand
  term : Term → α := fun _ => unsupported .expandTerm

namespace Token

def kind : Token → TokenKind
  | .expr e => e.kind
  | .path _ => .pathSegment
  | .orderItem _ => .orderBy
  | .select _ => .select
  | .selectItem _ => .selectTerm
  | .compute _ => .compute
  | .computed _ => .computeExpression
  | .clause _ => .expand
  | .term _ => .expandTerm

/-- Hands a token to the handler of its type. Children are not visited. -/
def accept {α : Type} (visitor : Visitor α) : Token → α
  | .expr e => visitor.expr e
  | .path p => visitor.path p
  | .orderItem item => visitor.orderItem item
  | .select s => visitor.select s
  | .selectItem item => visitor.selectItem item
  | .compute items => visitor.compute items
  | .computed c => visitor.computed c
  | .clause c => visitor.clause c
  | .term t => visitor.term t

/-- A visitor without handlers answers for every token by its kind. -/
theorem accept_unsupported {α : Type} (answer : TokenKind → α) (t : Token) :
    t.accept { unsupported := answer } = answer t.kind := by
  cases t <;> rfl

end Token

namespace Expr

mutual

/-- An expression and all its operands, each before its own. -/
def tokens : Expr → List Token
  | .member parent name => .expr (.member parent name) :: parent.tokens
  | .binary op left right => .expr (.binary op left right) :: (left.tokens ++ right.tokens)
  | .unary op operand => .expr (.unary op operand) :: operand.tokens
  | .call function arguments => .expr (.call function arguments) :: tokensOfAll arguments
  | .aggregate items => .expr (.aggregate items) :: tokensOfAggregations items
  | .groupBy properties => .expr (.groupBy properties) :: tokensOfAll properties
  | .groupByThen properties child =>
      .expr (.groupByThen properties child) :: (tokensOfAll properties ++ child.tokens)
  | .literal value => [.expr (.literal value)]
  | .property name => [.expr (.property name)]
  | .star => [.expr .star]
  | .search term => [.expr (.search term)]
  termination_by structural e => e

def tokensOfAll : List Expr → List Token
  | [] => []
  | e :: rest => e.tokens ++ tokensOfAll rest
  termination_by structural es => es

def tokensOfAggregations : List Aggregation → List Token
  | [] => []
  | ⟨e, _, _⟩ :: rest => e.tokens ++ tokensOfAggregations rest
  termination_by structural items => items

end

end Expr

namespace SelectItem

mutual

def tokens : SelectItem → List Token
  | ⟨path, none⟩ => [.selectItem ⟨path, none⟩, .path path]
  | ⟨path, some items⟩ =>
      .selectItem ⟨path, some items⟩ :: .path path :: .select items :: tokensOfAll items
  termination_by structural item => item

def tokensOfAll : List SelectItem → List Token
  | [] => []
  | item :: rest => item.tokens ++ tokensOfAll rest
  termination_by structural items => items

end

end SelectItem

def OrderItem.tokens (item : OrderItem) : List Token := .orderItem item :: item.expression.tokens

def Computed.tokens (c : Computed) : List Token := .computed c :: c.expression.tokens

/-- The tokens below a term, down to its nested clause. -/
def Modifiers.tokens (m : Modifiers) (select : Option Select) : List Token :=
  (m.filter.map Expr.tokens).getD [] ++
    (m.orderBy.getD []).flatMap OrderItem.tokens ++
    (m.search.map Expr.tokens).getD [] ++
    (select.map fun s => .select s :: SelectItem.tokensOfAll s).getD [] ++
    (m.compute.map fun items => .compute items :: items.flatMap Computed.tokens).getD [] ++
    (m.apply.map Expr.tokensOfAll).getD []

namespace Term

mutual

def tokens : Term → List Token
  | ⟨path, modifiers, select, none⟩ =>
      .term ⟨path, modifiers, select, none⟩ :: .path path :: modifiers.tokens select
  | ⟨path, modifiers, select, some terms⟩ =>
      .term ⟨path, modifiers, select, some terms⟩ :: .path path ::
        (modifiers.tokens select ++ .clause terms :: tokensOfAll terms)
  termination_by structural t => t

def tokensOfAll : List Term → List Token
  | [] => []
  | t :: rest => t.tokens ++ tokensOfAll rest
  termination_by structural terms => terms

end

end Term

/-- All tokens of a tree, each before its children. -/
def treeTokens (clause : Clause) : List Token := .clause clause :: Term.tokensOfAll clause

/-- The size of a tree: its terms at every level, and its longest chain of nested terms. -/
structure Summary where
  terms : Nat := 0
  depth : Nat := 0
  deriving DecidableEq

namespace Summary

def beside (a b : Summary) : Summary := ⟨a.terms + b.terms, max a.depth b.depth⟩

def under (nested : Summary) : Summary := ⟨nested.terms + 1, nested.depth + 1⟩

mutual

def ofTerm : Term → Summary
  | ⟨_, _, _, none⟩ => under {}
  | ⟨_, _, _, some terms⟩ => under (ofClause terms)
  termination_by structural t => t

def ofClause : List Term → Summary
  | [] => {}
  | t :: rest => beside (ofTerm t) (ofClause rest)
  termination_by structural terms => terms

end

/-- Counts at terms and clauses; other tokens hold no terms. -/
def visitor : Visitor Summary where
  unsupported := fun _ => {}
  clause := ofClause
  term := ofTerm

end Summary

end ExpandTree
