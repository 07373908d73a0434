import ExpandTree.Term

/-!
Building terms. A path is the one child that a term cannot do without; every option may be absent.
-/
namespace ExpandTree

/-- A term lacks a child it cannot exist without, named by what it stands for. -/
inductive TermError where
  | missingChild (role : String)
  deriving DecidableEq

namespace TermError

def role : TermError → String
  | .missingChild role => role

def message : TermError → String
  | .missingChild role => "missing required child: '" ++ role ++ "'"

end TermError

/-- All options of a term, absent unless given. -/
structure TermOptions extends Modifiers where
  select : Option Select := none
  expand : Option Clause := none

namespace Term

def build (path : Option Path) (options : TermOptions) : Except TermError Term :=
  match path with
  | none => .error (.missingChild "property")
  | some path => .ok ⟨path, options.toModifiers, options.select, options.expand⟩

/-- A term without options. -/
def ofPath (path : Option Path) : Except TermError Term := build path {}

def withSelectAndExpand (path : Option Path) (select : Option Select) (expand : Option Clause) :
    Except TermError Term :=
  build path { select, expand }

def options (t : Term) : TermOptions := { t.modifiers with select := t.select, expand := t.expand }

end Term

/-- A term in the making, whose parts may come in any order and be given again. -/
structure Builder where
  path : Option Path := none
  options : TermOptions := {}

namespace Builder

/-- Takes one part over from a finished term; an option that the term lacks stays as it was. -/
def take (part : TermPart) (t : Term) (b : Builder) : Builder :=
  let o := b.options
  match part with
  | .path => { b with path := some t.path }
  | .filter => { b with options := { o with filter := t.modifiers.filter <|> o.filter } }
  | .orderBy => { b with options := { o with orderBy := t.modifiers.orderBy <|> o.orderBy } }
  | .top => { b with options := { o with top := t.modifiers.top <|> o.top } }
  | .skip => { b with options := { o with skip := t.modifiers.skip <|> o.skip } }
  | .count => { b with options := { o with count := t.modifiers.count <|> o.count } }
  | .levels => { b with options := { o with levels := t.modifiers.levels <|> o.levels } }
  | .search => { b with options := { o with search := t.modifiers.search <|> o.search } }
  | .select => { b with options := { o with select := t.select <|> o.select } }
  | .compute => { b with options := { o with compute := t.modifiers.compute <|> o.compute } }
  | .apply => { b with options := { o with apply := t.modifiers.apply <|> o.apply } }
  | .expand => { b with options := { o with expand := t.expand <|> o.expand } }

def build (b : Builder) : Except TermError Term := Term.build b.path b.options

end Builder

end ExpandTree
