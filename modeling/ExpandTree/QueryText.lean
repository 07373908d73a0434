import ExpandTree.Double.Layout
import ExpandTree.Term
import ExpandTree.Text

/-!
Query text of expand clauses, as it stands in a request. Search expressions have a grammar of their
own: upper-case operators, NOT for every unary one, and words or quoted phrases for their terms.
-/
namespace ExpandTree

open Text

/-- Whether ascending order items say so. -/
structure Style where
  explicitAscending : Bool := false
  deriving DecidableEq

/-- Which grammar an expression is written in. -/
inductive Grammar where
  | plain
  | search
  deriving DecidableEq

/-- A string in single quotes; quotes inside are doubled. -/
def quotedString (s : List Char) : List Char :=
  '\x27' :: s.flatMap (fun c => if c = '\x27' then ['\x27', '\x27'] else [c]) ++ ['\x27']

def boolText : Bool → List Char
  | true => ['t', 'r', 'u', 'e']
  | false => ['f', 'a', 'l', 's', 'e']

def int64Text (n : Int64) : List Char := intText n.toInt

def Literal.text : Literal → List Char
  | .null => ['n', 'u', 'l', 'l']
  | .boolean b => boolText b
  | .int64 n => int64Text n
  | .double d => d.text .query
  | .decimal d => d.text
  | .string s => quotedString s.toList

def KeyValue.text (key : KeyValue) : List Char :=
  match key.name with
  | none => key.value.text
  | some name => name.toList ++ '=' :: key.value.text

/-- An empty list of keys leaves no trace. -/
def Segment.text (s : Segment) : List Char :=
  match s.keys with
  | none | some [] => s.identifier.toList
  | some (key :: keys) =>
      s.identifier.toList ++ '(' :: join [','] ((key :: keys).map KeyValue.text) ++ [')']

def Path.text (p : Path) : List Char := join ['/'] (p.segments.map Segment.text)

/-- What may stand in a search word; a blank, parenthesis or quote needs a phrase. -/
def isWordChar (c : Char) : Bool := !isBlank c && c != '(' && c != ')' && c != '"'

/-- Words of the search grammar itself. -/
def reservedWords : List (List Char) := [['A', 'N', 'D'], ['O', 'R'], ['N', 'O', 'T']]

def isSearchWord (term : List Char) : Bool :=
  term != [] && term.all isWordChar && !reservedWords.contains term

/-- A phrase in double quotes, with a backslash before quotes and backslashes. -/
def phrase (term : List Char) : List Char :=
  '"' :: term.flatMap (fun c => if c = '\\' ∨ c = '"' then ['\\', c] else [c]) ++ ['"']

def searchTermText (term : List Char) : List Char :=
  if isSearchWord term then term else phrase term

def binaryWord : Grammar → BinaryOp → List Char
  | .plain, op => op.keyword.toList
  | .search, op => op.keyword.toList.map Char.toUpper

/-- What stands before the operand of a unary operator. -/
def unaryLead : Grammar → UnaryOp → List Char
  | .search, _ => ['N', 'O', 'T', ' ']
  | .plain, .negate => ['-']
  | .plain, .not => ['n', 'o', 't', ' ']

def parenthesized (text : List Char) : List Char := '(' :: text ++ [')']

def Expr.isBinary : Expr → Bool
  | .binary .. => true
  | _ => false

/-- Operands that are binary operations get parentheses. -/
def operandText (operand : Expr) (text : List Char) : List Char :=
  if operand.isBinary then parenthesized text else text

namespace Expr

mutual

def text (grammar : Grammar) : Expr → List Char
  | .literal value => value.text
  | .property name => name.toList
  | .member parent name => parent.text grammar ++ '/' :: name.toList
  | .binary op left right =>
      operandText left (left.text grammar) ++ ' ' :: binaryWord grammar op ++
        ' ' :: operandText right (right.text grammar)
  | .unary op operand => unaryLead grammar op ++ operandText operand (operand.text grammar)
  | .call function arguments =>
      function.toList ++ parenthesized (join [','] (texts grammar arguments))
  | .star => ['*']
  | .search term => searchTermText term.toList
  | .aggregate items =>
      "aggregate".toList ++ parenthesized (join [','] (aggregationTexts grammar items))
  | .groupBy properties =>
      "groupby".toList ++ parenthesized (parenthesized (join [','] (texts grammar properties)))
  | .groupByThen properties child =>
      "groupby".toList ++
        parenthesized
          (parenthesized (join [','] (texts grammar properties)) ++ ',' :: child.text grammar)
  termination_by structural e => e

def texts (grammar : Grammar) : List Expr → List (List Char)
  | [] => []
  | e :: rest => e.text grammar :: texts grammar rest
  termination_by structural es => es

/-- The count of a group is written without its expression. -/
def aggregationTexts (grammar : Grammar) : List Aggregation → List (List Char)
  | [] => []
  | ⟨_, .count, name⟩ :: rest =>
      ("$count as ".toList ++ name.toList) :: aggregationTexts grammar rest
  | ⟨e, method, name⟩ :: rest =>
      (e.text grammar ++ " with ".toList ++ method.keyword.toList ++ " as ".toList ++
        name.toList) :: aggregationTexts grammar rest
  termination_by structural items => items

end

end Expr

def OrderItem.text (style : Style) (item : OrderItem) : List Char :=
  let expression := item.expression.text .plain
  match item.direction with
  | .descending => expression ++ " desc".toList
  | .ascending => if style.explicitAscending then expression ++ " asc".toList else expression

def Computed.text (c : Computed) : List Char :=
  c.expression.text .plain ++ " as ".toList ++ c.name.toList

def Levels.text : Levels → List Char
  | .depth n => int64Text n
  | .max => ['m', 'a', 'x']

/-- An option behind a dollar sign, with its value. -/
def assigned (part : TermPart) (value : List Char) : List Char :=
  '$' :: part.word.toList ++ '=' :: value

def TermPart.optionText (part : TermPart) (value : Option (List Char)) : Option (List Char) :=
  value.map (assigned part)

namespace SelectItem

mutual

def text : SelectItem → List Char
  | ⟨path, none⟩ => path.text
  | ⟨path, some items⟩ =>
      path.text ++ parenthesized (assigned .select (join [','] (texts items)))
  termination_by structural item => item

def texts : List SelectItem → List (List Char)
  | [] => []
  | item :: rest => item.text :: texts rest
  termination_by structural items => items

end

end SelectItem

def selectText (select : Select) : List Char := join [','] (SelectItem.texts select)

def computeText (compute : List Computed) : List Char := join [','] (compute.map Computed.text)

def orderByText (style : Style) (items : List OrderItem) : List Char :=
  join [','] (items.map (OrderItem.text style))

def applyText (steps : List Expr) : List Char := join ['/'] (Expr.texts .plain steps)

/-- The present options up to apply, in order. -/
def Modifiers.optionTexts (style : Style) (m : Modifiers) (select : Option Select) :
    List (List Char) :=
  [TermPart.filter.optionText (m.filter.map (Expr.text .plain)),
   TermPart.orderBy.optionText (m.orderBy.map (orderByText style)),
   TermPart.top.optionText (m.top.map int64Text),
   TermPart.skip.optionText (m.skip.map int64Text),
   TermPart.count.optionText (m.count.map boolText),
   TermPart.levels.optionText (m.levels.map Levels.text),
   TermPart.search.optionText (m.search.map (Expr.text .search)),
   TermPart.select.optionText (select.map selectText),
   TermPart.compute.optionText (m.compute.map computeText),
   TermPart.apply.optionText (m.apply.map applyText)].filterMap id

/-- A path with its options in parentheses, if there are any. -/
def withOptions (path : Path) : List (List Char) → List Char
  | [] => path.text
  | option :: rest => path.text ++ parenthesized (join [';'] (option :: rest))

namespace Term

mutual

def text (style : Style) : Term → List Char
  | ⟨path, modifiers, select, none⟩ =>
      withOptions path (modifiers.optionTexts style select)
  | ⟨path, modifiers, select, some terms⟩ =>
      withOptions path
        (modifiers.optionTexts style select ++ [assigned .expand (join [','] (texts style terms))])
  termination_by structural t => t

def texts (style : Style) : List Term → List (List Char)
  | [] => []
  | t :: rest => t.text style :: texts style rest
  termination_by structural terms => terms

end

end Term

def clauseText (style : Style) (clause : Clause) : List Char :=
  join [','] (Term.texts style clause)

/-- The whole option of a request. -/
def queryText (style : Style) (clause : Clause) : List Char :=
  assigned .expand (clauseText style clause)

end ExpandTree
