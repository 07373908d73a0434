import ExpandTree.Json.Numeral
import ExpandTree.Json.StringLiteral

/-!
Reading JSON text. The first fault ends the reading. Arrays and objects nest at most 127 deep; of
two fields with one key the later counts.
-/
namespace ExpandTree.Json

/-- Blanks between tokens: space, tab and line ends. -/
def isGap (c : Char) : Bool := c = ' ' ∨ c = '\t' ∨ c = '\n' ∨ c = '\r'

def skipGap (text : List Char) : List Char := text.dropWhile isGap

/-- The remaining letters of a word that stands for a value. -/
def word (v : Json) : List Char → List Char → Read (Json × List Char)
  | [], rest => .ok (v, rest)
  | _ :: _, [] => faultAt .endInValue [] 0
  | letter :: letters, c :: rest =>
      if c = letter then word v letters rest else faultAt .expectedWord (c :: rest) 1

/-- The key of a field and its colon. -/
def fieldKey (fuel : Nat) (text : List Char) : Read (String × List Char) := do
  let (key, rest) ← stringBody fuel text
  match skipGap rest with
  | ':' :: rest => return (key, rest)
  | [] => faultAt .endInObject [] 1
  | rest => faultAt .expectedColon rest 1

def depthLimit : Nat := 127

mutual

/-- A value. `room` counts the brackets that may still open. Two calls in a row read a character at
least, so twice the length of the text is fuel enough, also for the strings in it. -/
def value : Nat → Nat → List Char → Read (Json × List Char)
  | 0, _, _ => faultAt .tooDeep [] 0
  | fuel + 1, room, text =>
      match skipGap text with
      | [] => faultAt .endInValue [] 1
      | 'n' :: rest => word .null ['u', 'l', 'l'] rest
      | 't' :: rest => word (.boolean true) ['r', 'u', 'e'] rest
      | 'f' :: rest => word (.boolean false) ['a', 'l', 's', 'e'] rest
      | '-' :: rest => do
          let (n, rest) ← numeral true rest
          return (.number n, rest)
      | '"' :: rest => do
          let (s, rest) ← stringBody fuel rest
          return (.string s, rest)
      | '[' :: rest =>
          match room with
          | 0 => faultAt .tooDeep ('[' :: rest) 1
          | room + 1 => do
              let (items, rest) ← firstItem fuel room rest
              return (.array items, rest)
      | '\x7b' :: rest =>
          match room with
          | 0 => faultAt .tooDeep ('\x7b' :: rest) 1
          | room + 1 => do
              let (fields, rest) ← firstField fuel room rest
              return (ofFields fields, rest)
      | c :: rest =>
          if c.isDigit then do
            let (n, rest) ← numeral false (c :: rest)
            return (.number n, rest)
          else faultAt .expectedValue (c :: rest) 1

/-- The items of an array behind its bracket. -/
def firstItem : Nat → Nat → List Char → Read (List Json × List Char)
  | 0, _, _ => faultAt .tooDeep [] 0
  | fuel + 1, room, text =>
      match skipGap text with
      | [] => faultAt .endInList [] 1
      | ']' :: rest => .ok ([], rest)
      | text => do
          let (v, rest) ← value fuel room text
          let (items, rest) ← nextItem fuel room rest
          return (v :: items, rest)

/-- The items of an array behind one of them. -/
def nextItem : Nat → Nat → List Char → Read (List Json × List Char)
  | 0, _, _ => faultAt .tooDeep [] 0
  | fuel + 1, room, text =>
      match skipGap text with
      | [] => faultAt .endInList [] 1
      | ']' :: rest => .ok ([], rest)
      | ',' :: rest =>
          match skipGap rest with
          | [] => faultAt .endInValue [] 1
          | ']' :: rest => faultAt .trailingComma (']' :: rest) 1
          | text => do
              let (v, rest) ← value fuel room text
              let (items, rest) ← nextItem fuel room rest
              return (v :: items, rest)
      | rest => faultAt .expectedListEnd rest 1

/-- The fields of an object behind its brace. -/
def firstField : Nat → Nat → List Char → Read (Fields × List Char)
  | 0, _, _ => faultAt .tooDeep [] 0
  | fuel + 1, room, text =>
      match skipGap text with
      | [] => faultAt .endInObject [] 1
      | '\x7d' :: rest => .ok ([], rest)
      | '"' :: rest => do
          let (key, rest) ← fieldKey fuel rest
          let (v, rest) ← value fuel room rest
          let (fields, rest) ← nextField fuel room rest
          return ((key, v) :: fields, rest)
      | rest => faultAt .keyNotString rest 1

/-- The fields of an object behind one of them. -/
def nextField : Nat → Nat → List Char → Read (Fields × List Char)
  | 0, _, _ => faultAt .tooDeep [] 0
  | fuel + 1, room, text =>
      match skipGap text with
      | [] => faultAt .endInObject [] 1
      | '\x7d' :: rest => .ok ([], rest)
      | ',' :: rest =>
          match skipGap rest with
          | [] => faultAt .endInValue [] 1
          | '\x7d' :: rest => faultAt .trailingComma ('\x7d' :: rest) 1
          | '"' :: rest => do
              let (key, rest) ← fieldKey fuel rest
              let (v, rest) ← value fuel room rest
              let (fields, rest) ← nextField fuel room rest
              return ((key, v) :: fields, rest)
          | rest => faultAt .keyNotString rest 1
      | rest => faultAt .expectedObjectEnd rest 1

end

/-- A value with nothing but blanks behind it. -/
def document (text : List Char) : Read Json := do
  let (v, rest) ← value (2 * text.length + 2) depthLimit text
  match skipGap rest with
  | [] => return v
  | rest => faultAt .trailingCharacters rest 1

def ofText (text : List Char) : Except TextError Json :=
  (document text).mapError (Fault.within text)

end ExpandTree.Json
