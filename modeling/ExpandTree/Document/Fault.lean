import ExpandTree.Building
import ExpandTree.Decimal.Reading
import ExpandTree.Double.Reading
import ExpandTree.Json.Fault
import ExpandTree.Json.Printer

/-!
What can be wrong with a tree document: a value of the wrong shape, a missing or unknown word, a
number out of range, or a term without a path.
-/
namespace ExpandTree

/-- Values of a document that must be objects. -/
inductive ItemKind where
  | orderBy
  | compute
  | aggregate
  deriving DecidableEq

def ItemKind.word : ItemKind → String
  | .orderBy => "orderby"
  | .compute => "compute"
  | .aggregate => "aggregate"

inductive DocumentFault where
  | notTerms (got : Json)
  | termNotObject
  | unknownPart (key : String)
  | emptySegment (path : String)
  | notPath (got : Json)
  | notSegment (got : Json)
  | keyNotObject
  | keyNameNotString
  | keyWithoutValue
  | notArray (key : String)
  | notInteger (key : String)
  | notBoolean (key : String)
  | notLevels
  | notString (key : String)
  | missing (key : String)
  | itemNotObject (kind : ItemKind)
  | notSelectItem (got : Json)
  | selectItemWithoutPath
  | notExpressions
  | notExpression (got : Json)
  | unrecognisedExpression (got : Json)
  | unknownDirection (keyword : String)
  | unknownBinaryOp (keyword : String)
  | unknownUnaryOp (keyword : String)
  | unknownMethod (keyword : String)
  | aggregateWithoutExpression
  | arrayLiteral
  | malformedDouble (text : String) (cause : Double.ReadingError)
  | malformedDecimal (text : String) (cause : Decimal.ReadingError)

def inQuotes (s : String) : String := "'" ++ s ++ "'"

def DocumentFault.message : DocumentFault → String
  | .notTerms got => "expected an array of terms, got " ++ got.shown
  | .termNotObject => "expand term must be an object"
  | .unknownPart key => "unknown expand option " ++ inQuotes key
  | .emptySegment path => "path " ++ inQuotes path ++ " has an empty segment"
  | .notPath got => "path must be a string or array, got " ++ got.shown
  | .notSegment got => "invalid path segment " ++ got.shown
  | .keyNotObject => "key value must be an object"
  | .keyNameNotString => "key name must be a string"
  | .keyWithoutValue => "key value requires 'value'"
  | .notArray key => inQuotes key ++ " must be an array"
  | .notInteger key => inQuotes key ++ " must be an integer"
  | .notBoolean key => inQuotes key ++ " must be a boolean"
  | .notLevels => "'levels' must be an integer or \"max\""
  | .notString key => inQuotes key ++ " must be a string"
  | .missing key => "missing " ++ inQuotes key
  | .itemNotObject kind => kind.word ++ " item must be an object"
  | .notSelectItem got => "invalid select item " ++ got.shown
  | .selectItemWithoutPath => "select item requires a path"
  | .notExpressions => "expected an array of expressions"
  | .notExpression got => "invalid expression " ++ got.shown
  | .unrecognisedExpression got => "unrecognised expression " ++ got.shown
  | .unknownDirection keyword => "unknown direction " ++ inQuotes keyword
  | .unknownBinaryOp keyword => "unknown binary operator " ++ inQuotes keyword
  | .unknownUnaryOp keyword => "unknown unary operator " ++ inQuotes keyword
  | .unknownMethod keyword => "unknown aggregation method " ++ inQuotes keyword
  | .aggregateWithoutExpression => "aggregate item requires 'expr'"
  | .arrayLiteral => "array literals are not supported"
  | .malformedDouble text cause => "invalid double " ++ inQuotes text ++ ": " ++ cause.message
  | .malformedDecimal text cause => "invalid decimal " ++ inQuotes text ++ ": " ++ cause.message

/-- Why a document describes no tree. -/
inductive TreeFault where
  | term (cause : TermError)
  | document (cause : DocumentFault)

/-- Why no tree could be had from an input. -/
inductive TreeError where
  | term (cause : TermError)
  | text (cause : Json.TextError)
  | document (cause : DocumentFault)
  | notUtf8
  | noInput

def TreeError.ofFault : TreeFault → TreeError
  | .term cause => .term cause
  | .document cause => .document cause

def TreeError.message : TreeError → String
  | .term cause => "Invalid expand term: " ++ cause.message
  | .text cause => "Invalid JSON: " ++ cause.message
  | .document cause => "Invalid tree description: " ++ cause.message
  | .notUtf8 => "IO error: stream did not contain valid UTF-8"
  | .noInput => "No input provided. Pass a JSON tree or pipe one to stdin."

end ExpandTree
