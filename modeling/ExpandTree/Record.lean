import ExpandTree.Document.Reader
import ExpandTree.Normalization
import ExpandTree.Text

/-!
Records of what happened while a tree was read and normalized, in order. Readings are recorded up
to the first fault; a merge is recorded with the path of the term that stays.
-/
namespace ExpandTree

inductive Level where
  | debug
  | trace
  deriving DecidableEq

def Level.name : Level → String
  | .debug => "DEBUG"
  | .trace => "TRACE"

inductive Record where
  | reading (path : Option Path)
  | loaded (terms : Nat)
  | normalizing (terms : Nat)
  | inverted (path : Path)
  | merged (path : Path)

namespace Record

def level : Record → Level
  | .reading _ | .inverted _ => .trace
  | .loaded _ | .normalizing _ | .merged _ => .debug

def message : Record → List Char
  | .reading none => "reading expand term None".toList
  | .reading (some path) =>
      "reading expand term Some(".toList ++ Text.quoted path.display ++ [')']
  | .loaded n =>
      "loaded expand clause with ".toList ++ Text.natText n ++ " top-level term(s)".toList
  | .normalizing n =>
      "normalizing expand clause with ".toList ++ Text.natText n ++ " term(s)".toList
  | .inverted path => "inverted expand path to '".toList ++ path.display ++ ['\x27']
  | .merged path => "combining duplicate expand term '".toList ++ path.display ++ ['\x27']

def text (r : Record) : List Char := r.level.name.toList ++ ' ' :: r.message

end Record

namespace Term

mutual

/-- A term is recorded when its path is known, and before its options are read. -/
def readingRecords : Json → List Record
  | .object fields =>
      match termPath fields with
      | .error _ => []
      | .ok path =>
          .reading path ::
            match TermOptions.ofFields fields with
            | .error _ => []
            | .ok _ => nestedReadingRecords TermPart.expand.word fields
  | _ => []
  termination_by structural v => v

def clauseReadingRecords : Json → List Record
  | .array items => itemReadingRecords items
  | _ => []
  termination_by structural v => v

def nestedReadingRecords (key : String) : List (String × Json) → List Record
  | [] => []
  | (k, v) :: rest =>
      if key = k then clauseReadingRecords v else nestedReadingRecords key rest
  termination_by structural fields => fields

/-- A fault in one item ends the reading of its clause. -/
def itemReadingRecords : List Json → List Record
  | [] => []
  | v :: rest =>
      match ofJson v with
      | .error _ => readingRecords v
      | .ok _ => readingRecords v ++ itemReadingRecords rest
  termination_by structural items => items

end

mutual

def inversionRecords : Term → List Record
  | ⟨path, _, _, none⟩ => [.inverted path.reversed]
  | ⟨path, _, _, some terms⟩ => .inverted path.reversed :: inversionRecordsOfAll terms
  termination_by structural t => t

def inversionRecordsOfAll : List Term → List Record
  | [] => []
  | t :: rest => t.inversionRecords ++ inversionRecordsOfAll rest
  termination_by structural terms => terms

end

end Term

/-- The records of reading a document. -/
def readingRecords : Json → List Record
  | .array items => Term.itemReadingRecords items
  | v => Term.readingRecords v

def readingRecordsOfText (text : List Char) : List Record :=
  match Json.ofText text with
  | .error _ => []
  | .ok v => readingRecords v

namespace Clause

/-- The merges of one clause, with the terms that stay so far. -/
def mergeRecordsInto (terms : Clause) : Clause → List Record
  | [] => []
  | t :: rest =>
      let records :=
        match terms.find? (·.path.samePath t.path) with
        | some first => [.merged first.path]
        | none => []
      records ++ mergeRecordsInto (insert t terms) rest

def mergeRecords (clause : Clause) : List Record := mergeRecordsInto [] clause

/-- The merges of a given number of levels: those of a clause come before those below it. -/
def combiningRecordsTo : Nat → Clause → List Record
  | 0, _ => []
  | levels + 1, clause =>
      mergeRecords clause ++
        (merged clause).flatMap fun t => ((t.expand.map (combiningRecordsTo levels)).getD [])

def combiningRecords (clause : Clause) : List Record :=
  combiningRecordsTo (Summary.ofClause clause).depth clause

def normalizingRecords (clause : Clause) : List Record :=
  .normalizing clause.length ::
    (Term.inversionRecordsOfAll clause ++ clause.inverted.combiningRecords)

end Clause

end ExpandTree
