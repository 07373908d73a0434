/-!
Faults in JSON text: the cause and the place. A reader knows what is left of the text where it
stopped; line and column are counted from that in bytes, lines from one.
-/
namespace ExpandTree.Json

inductive Cause where
  | endInValue
  | endInString
  | endInList
  | endInObject
  | expectedValue
  | expectedWord
  | expectedColon
  | expectedListEnd
  | expectedObjectEnd
  | keyNotString
  | trailingComma
  | trailingCharacters
  | controlCharacter
  | invalidEscape
  | loneSurrogate
  | brokenSurrogatePair
  | invalidNumber
  | numberOutOfRange
  | tooDeep
  deriving DecidableEq

def Cause.message : Cause → String
  | .endInValue => "EOF while parsing a value"
  | .endInString => "EOF while parsing a string"
  | .endInList => "EOF while parsing a list"
  | .endInObject => "EOF while parsing an object"
  | .expectedValue => "expected value"
  | .expectedWord => "expected ident"
  | .expectedColon => "expected \x60:\x60"
  | .expectedListEnd => "expected \x60,\x60 or \x60]\x60"
  | .expectedObjectEnd => "expected \x60,\x60 or \x60\x7d\x60"
  | .keyNotString => "key must be a string"
  | .trailingComma => "trailing comma"
  | .trailingCharacters => "trailing characters"
  | .controlCharacter => "control character (\\u0000-\\u001F) found while parsing a string"
  | .invalidEscape => "invalid escape"
  | .loneSurrogate => "lone leading surrogate in hex escape"
  | .brokenSurrogatePair => "unexpected end of hex escape"
  | .invalidNumber => "invalid number"
  | .numberOutOfRange => "number out of range"
  | .tooDeep => "recursion limit exceeded"

/-- A fault met with `rest` still unread, of which the first `taken` bytes count as read. -/
structure Fault where
  cause : Cause
  rest : List Char
  taken : Nat
  deriving DecidableEq

/-- A reading step gives what it read together with the text behind it. -/
abbrev Read := Except Fault

def faultAt {α : Type} (cause : Cause) (rest : List Char) (taken : Nat) : Read α :=
  .error ⟨cause, rest, taken⟩

structure Position where
  line : Nat
  column : Nat
  deriving DecidableEq

/-- The position after a count of bytes; a count beyond the text stops at its end. -/
def Position.advance (line column : Nat) : Nat → List Char → Position
  | _, [] => ⟨line, column⟩
  | bytes, c :: rest =>
      if bytes < c.utf8Size then ⟨line, column + bytes⟩
      else if c = '\n' then advance (line + 1) 0 (bytes - 1) rest
      else advance line (column + c.utf8Size) (bytes - c.utf8Size) rest

def byteLength (text : List Char) : Nat := text.foldl (fun bytes c => bytes + c.utf8Size) 0

/-- A fault with its place in the text. -/
structure TextError where
  cause : Cause
  position : Position
  deriving DecidableEq

def Fault.within (text : List Char) (fault : Fault) : TextError :=
  ⟨fault.cause,
    Position.advance 1 0 (byteLength text - byteLength fault.rest + fault.taken) text⟩

def TextError.message (e : TextError) : String :=
  e.cause.message ++ " at line " ++ toString e.position.line ++ " column " ++
    toString e.position.column

end ExpandTree.Json
