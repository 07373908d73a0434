import ExpandTree.Json.Fault

/-!
Reading JSON strings: characters up to the closing quote, with their escapes. Code points beyond
the first plane are escaped as a surrogate pair; a surrogate without its partner is a fault.
-/
namespace ExpandTree.Json

def hexValue? (c : Char) : Option Nat :=
  let n := c.toNat
  if 0x30 ≤ n ∧ n ≤ 0x39 then some (n - 0x30)
  else if 0x41 ≤ n ∧ n ≤ 0x46 then some (n - 0x41 + 10)
  else if 0x61 ≤ n ∧ n ≤ 0x66 then some (n - 0x61 + 10)
  else none

/-- Four hexadecimal digits. Four bytes are taken before they are looked at. -/
def hexCode (text : List Char) : Read (Nat × List Char) :=
  if byteLength (text.take 4) < 4 then faultAt .endInString [] 0
  else match text with
    | a :: b :: c :: d :: rest =>
        match hexValue? a, hexValue? b, hexValue? c, hexValue? d with
        | some a, some b, some c, some d => .ok (((a * 16 + b) * 16 + c) * 16 + d, rest)
        | _, _, _, _ => faultAt .invalidEscape text 4
    | _ => faultAt .invalidEscape text 4

def isLeadingSurrogate (code : Nat) : Bool := 0xD800 ≤ code && code < 0xDC00

def isTrailingSurrogate (code : Nat) : Bool := 0xDC00 ≤ code && code < 0xE000

/-- The second half of a surrogate pair, behind its first half. -/
def trailingHalf (leading : Nat) : List Char → Read (Char × List Char)
  | [] | ['\\'] => faultAt .endInString [] 0
  | '\\' :: 'u' :: text => do
      let (trailing, rest) ← hexCode text
      if isTrailingSurrogate trailing then
        return (Char.ofNat (0x10000 + (leading - 0xD800) * 0x400 + (trailing - 0xDC00)), rest)
      else faultAt .loneSurrogate rest 0
  | '\\' :: rest => faultAt .brokenSurrogatePair rest 1
  | rest => faultAt .brokenSurrogatePair rest 1

def codeEscape (text : List Char) : Read (Char × List Char) := do
  let (code, rest) ← hexCode text
  if isTrailingSurrogate code then faultAt .loneSurrogate rest 0
  else if isLeadingSurrogate code then trailingHalf code rest
  else return (Char.ofNat code, rest)

/-- What stands behind a backslash. -/
def unescape : List Char → Read (Char × List Char)
  | [] => faultAt .endInString [] 0
  | '"' :: rest => .ok ('"', rest)
  | '\\' :: rest => .ok ('\\', rest)
  | '/' :: rest => .ok ('/', rest)
  | 'b' :: rest => .ok ('\x08', rest)
  | 'f' :: rest => .ok ('\x0c', rest)
  | 'n' :: rest => .ok ('\n', rest)
  | 'r' :: rest => .ok ('\r', rest)
  | 't' :: rest => .ok ('\t', rest)
  | 'u' :: rest => codeEscape rest
  | rest => faultAt .invalidEscape rest 1

/-- Characters up to the closing quote. Each step takes a character, so the length of the text is
fuel enough. -/
def characters : Nat → List Char → Read (List Char × List Char)
  | 0, _ => faultAt .endInString [] 0
  | _, [] => faultAt .endInString [] 0
  | fuel + 1, c :: rest =>
      if c = '"' then .ok ([], rest)
      else if c = '\\' then do
        let (escaped, rest) ← unescape rest
        let (more, rest) ← characters fuel rest
        return (escaped :: more, rest)
      else if c.toNat < 0x20 then faultAt .controlCharacter (c :: rest) 1
      else do
        let (more, rest) ← characters fuel rest
        return (c :: more, rest)

/-- A string behind its opening quote. -/
def stringBody (fuel : Nat) (text : List Char) : Read (String × List Char) := do
  let (content, rest) ← characters fuel text
  return (String.ofList content, rest)

end ExpandTree.Json
