import ExpandTree.Json
import ExpandTree.Double.Layout

/-!
JSON text, in one line without blanks or indented by two blanks a level. In strings the quote, the
backslash and control characters are escaped; all else stands for itself.
-/
namespace ExpandTree.Json

open Text

inductive Layout where
  | compact
  | indented
  deriving DecidableEq

def hexDigit (n : Nat) : Char := (Nat.toDigits 16 n).headD '0'

def escape (c : Char) : List Char :=
  if c = '"' then ['\\', '"']
  else if c = '\\' then ['\\', '\\']
  else if c = '\x08' then ['\\', 'b']
  else if c = '\x0c' then ['\\', 'f']
  else if c = '\n' then ['\\', 'n']
  else if c = '\r' then ['\\', 'r']
  else if c = '\t' then ['\\', 't']
  else if c.toNat < 0x20 then
    ['\\', 'u', '0', '0', hexDigit (c.toNat / 16), hexDigit (c.toNat % 16)]
  else [c]

def stringText (s : String) : List Char :=
  '"' :: s.toList.flatMap escape ++ ['"']

def numberText : Number → List Char
  | .integer n => intText n
  | .double d => d.text .json

/-- What goes between brackets and items: nothing, or a line end and the indentation. -/
def lineBreak (layout : Layout) (depth : Nat) : List Char :=
  match layout with
  | .compact => []
  | .indented => '\n' :: List.replicate (2 * depth) ' '

def afterKey : Layout → List Char
  | .compact => [':']
  | .indented => [':', ' ']

mutual

def print (layout : Layout) (depth : Nat) : Json → List Char
  | .null => ['n', 'u', 'l', 'l']
  | .boolean true => ['t', 'r', 'u', 'e']
  | .boolean false => ['f', 'a', 'l', 's', 'e']
  | .number n => numberText n
  | .string s => stringText s
  | .array [] => ['[', ']']
  | .array (v :: rest) =>
      '[' :: lineBreak layout (depth + 1) ++ print layout (depth + 1) v ++
        printItems layout (depth + 1) rest ++ lineBreak layout depth ++ [']']
  | .object [] => ['\x7b', '\x7d']
  | .object ((key, v) :: rest) =>
      '\x7b' :: lineBreak layout (depth + 1) ++ stringText key ++ afterKey layout ++
        print layout (depth + 1) v ++ printFields layout (depth + 1) rest ++
        lineBreak layout depth ++ ['\x7d']
  termination_by structural v => v

/-- Items after the first, each behind its comma. -/
def printItems (layout : Layout) (depth : Nat) : List Json → List Char
  | [] => []
  | v :: rest =>
      ',' :: lineBreak layout depth ++ print layout depth v ++ printItems layout depth rest
  termination_by structural items => items

def printFields (layout : Layout) (depth : Nat) : List (String × Json) → List Char
  | [] => []
  | (key, v) :: rest =>
      ',' :: lineBreak layout depth ++ stringText key ++ afterKey layout ++
        print layout depth v ++ printFields layout depth rest
  termination_by structural fields => fields

end

def text (layout : Layout) (v : Json) : List Char := print layout 0 v

/-- The text of a value inside a message. -/
def shown (v : Json) : String := String.ofList (v.text .compact)

end ExpandTree.Json
