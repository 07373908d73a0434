import ExpandTree.Literal
import ExpandTree.Operator

/-!
Expressions of filters, searches, orderings, computed properties and apply pipelines. Operands are
owned, so an expression is always a tree.
-/
namespace ExpandTree

mutual

inductive Expr where
  | literal (value : Literal)
  | property (name : String)
  | member (parent : Expr) (name : String)
  | binary (op : BinaryOp) (left right : Expr)
  | unary (op : UnaryOp) (operand : Expr)
  | call (function : String) (arguments : List Expr)
  | star
  | search (term : String)
  | aggregate (items : List Aggregation)
  | groupBy (properties : List Expr)
  | groupByThen (properties : List Expr) (child : Expr)

/-- One condensed value of an aggregate step and the name it gets. -/
structure Aggregation where
  expression : Expr
  method : AggregationMethod
  name : String

end

namespace Expr

mutual

def equals : Expr → Expr → Bool
  | .literal a, .literal b => a == b
  | .property m, .property n => m == n
  | .member p m, .member q n => p.equals q && m == n
  | .binary f a b, .binary g c d => f == g && a.equals c && b.equals d
  | .unary f a, .unary g b => f == g && a.equals b
  | .call f as, .call g bs => f == g && allEqual as bs
  | .star, .star => true
  | .search a, .search b => a == b
  | .aggregate as, .aggregate bs => aggregationsEqual as bs
  | .groupBy ps, .groupBy qs => allEqual ps qs
  | .groupByThen ps a, .groupByThen qs b => allEqual ps qs && a.equals b
  | _, _ => false
  termination_by structural e => e

def allEqual : List Expr → List Expr → Bool
  | [], [] => true
  | a :: as, b :: bs => a.equals b && allEqual as bs
  | _, _ => false
  termination_by structural es => es

def aggregationsEqual : List Aggregation → List Aggregation → Bool
  | [], [] => true
  | ⟨a, f, m⟩ :: as, ⟨b, g, n⟩ :: bs =>
      a.equals b && f == g && m == n && aggregationsEqual as bs
  | _, _ => false
  termination_by structural items => items

end

instance : BEq Expr := ⟨equals⟩

/-- The property that counts the members of a group. -/
def groupCount : Expr := .property "$count"

end Expr

end ExpandTree
