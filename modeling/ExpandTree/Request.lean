import ExpandTree.Document
import ExpandTree.QueryText
import ExpandTree.Record

/-!
Requests on a tree description: its size, its query text or its document. Paths of a description
are in reading order, so normalizing one only combines its terms. Blank input is no description.
-/
namespace ExpandTree

structure Request where
  tree : List Char
  normalize : Bool := false
  style : Style := {}

namespace Request

/-- The tree as described, before any combining. -/
def description (r : Request) : Except TreeError Clause :=
  if Text.allBlank r.tree then .error .noInput else clauseOfText r.tree

def load (r : Request) : Except TreeError Clause :=
  r.description.map fun clause => if r.normalize then clause.combined else clause

def check (r : Request) : Except TreeError Summary := r.load.map Summary.ofClause

def render (r : Request) : Except TreeError (List Char) := r.load.map (queryText r.style)

def dump (r : Request) : Except TreeError Json := r.load.map clauseJson

/-- What is recorded while the tree is loaded. -/
def records (r : Request) : List Record :=
  if Text.allBlank r.tree then []
  else
    readingRecordsOfText r.tree ++
      match clauseOfText r.tree with
      | .error _ => []
      | .ok clause =>
          .loaded clause.length :: (if r.normalize then clause.combiningRecords else [])

end Request

end ExpandTree
