import ExpandTree.Expr
import ExpandTree.Path

/-!
Expand clauses: lists of terms. A term names a navigation property and may modify what is expanded
by eleven options, among them a nested select and a nested clause.
-/
namespace ExpandTree

/-- One item of a select, perhaps with a select of its own. -/
structure SelectItem where
  path : Path
  select : Option (List SelectItem)

abbrev Select := List SelectItem

namespace SelectItem

mutual

def equals : SelectItem → SelectItem → Bool
  | ⟨p, none⟩, ⟨q, none⟩ => p == q
  | ⟨p, some as⟩, ⟨q, some bs⟩ => p == q && allEqual as bs
  | _, _ => false
  termination_by structural item => item

def allEqual : List SelectItem → List SelectItem → Bool
  | [], [] => true
  | a :: as, b :: bs => a.equals b && allEqual as bs
  | _, _ => false
  termination_by structural items => items

end

instance : BEq SelectItem := ⟨equals⟩

end SelectItem

structure OrderItem where
  expression : Expr
  direction : Direction

instance : BEq OrderItem :=
  ⟨fun a b => a.expression == b.expression && a.direction == b.direction⟩

/-- A property computed from an expression. -/
structure Computed where
  expression : Expr
  name : String

instance : BEq Computed := ⟨fun a b => a.expression == b.expression && a.name == b.name⟩

/-- How often a recursive expansion repeats. No range is checked. -/
inductive Levels where
  | depth (n : Int64)
  | max
  deriving DecidableEq

/-- The options that stay as they are once a term is built. -/
structure Modifiers where
  filter : Option Expr := none
  orderBy : Option (List OrderItem) := none
  top : Option Int64 := none
  skip : Option Int64 := none
  count : Option Bool := none
  levels : Option Levels := none
  search : Option Expr := none
  compute : Option (List Computed) := none
  apply : Option (List Expr) := none

namespace Modifiers

instance : BEq Modifiers :=
  ⟨fun a b =>
    a.filter == b.filter && a.orderBy == b.orderBy && a.top == b.top && a.skip == b.skip &&
      a.count == b.count && a.levels == b.levels && a.search == b.search &&
      a.compute == b.compute && a.apply == b.apply⟩

def isEmpty (m : Modifiers) : Bool :=
  m.filter.isNone && m.orderBy.isNone && m.top.isNone && m.skip.isNone && m.count.isNone &&
    m.levels.isNone && m.search.isNone && m.compute.isNone && m.apply.isNone

end Modifiers

structure Term where
  path : Path
  modifiers : Modifiers
  select : Option Select
  expand : Option (List Term)

abbrev Clause := List Term

namespace Term

mutual

def equals : Term → Term → Bool
  | ⟨p, m, s, none⟩, ⟨q, n, t, none⟩ => p == q && m == n && s == t
  | ⟨p, m, s, some as⟩, ⟨q, n, t, some bs⟩ => p == q && m == n && s == t && allEqual as bs
  | _, _ => false
  termination_by structural t => t

def allEqual : List Term → List Term → Bool
  | [], [] => true
  | a :: as, b :: bs => a.equals b && allEqual as bs
  | _, _ => false
  termination_by structural terms => terms

end

instance : BEq Term := ⟨equals⟩

/-- No option is present. -/
def isBare (t : Term) : Bool := t.modifiers.isEmpty && t.select.isNone && t.expand.isNone

def mapExpand (f : Clause → Clause) (t : Term) : Term :=
  { t with expand := t.expand.map f }

end Term

/-- The parts of a term, in the order in which options are written in query text. -/
inductive TermPart where
  | path
  | filter
  | orderBy
  | top
  | skip
  | count
  | levels
  | search
  | select
  | compute
  | apply
  | expand
  deriving DecidableEq

namespace TermPart

def all : List TermPart :=
  [.path, .filter, .orderBy, .top, .skip, .count, .levels, .search, .select, .compute, .apply,
   .expand]

/-- The word for a part: the key of a tree document, and after a dollar sign the option's name. -/
def word : TermPart → String
  | .path => "path"
  | .filter => "filter"
  | .orderBy => "orderby"
  | .top => "top"
  | .skip => "skip"
  | .count => "count"
  | .levels => "levels"
  | .search => "search"
  | .select => "select"
  | .compute => "compute"
  | .apply => "apply"
  | .expand => "expand"

def words : List String := all.map word

end TermPart

end ExpandTree
