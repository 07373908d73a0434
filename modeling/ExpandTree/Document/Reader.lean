import ExpandTree.Document.ExprReader
import ExpandTree.Json.Reader

/-!
Reading tree documents. A document is a term or an array of terms. Several spellings are accepted
where one is written: defaults may be left out, and a select item may be its path alone. The first
fault in reading order is the one reported; a missing path is noticed only after all options.
-/
namespace ExpandTree

open Json (Fields)

namespace OrderItem

/-- Without a direction, or with one that is no string, an item is ascending. -/
def directionOf : Option Json → Reads Direction
  | some (.string keyword) =>
      match Direction.ofKeyword? keyword with
      | some direction => .ok direction
      | none => .error (.unknownDirection keyword)
  | _ => .ok .ascending

def ofJson : Json → Reads OrderItem
  | .object fields => do
      let expression ← Expr.ofJson (← requiredField "expr" fields)
      let direction ← directionOf (fields.lookup "direction")
      return ⟨expression, direction⟩
  | _ => .error (.itemNotObject .orderBy)

end OrderItem

def Computed.ofJson : Json → Reads Computed
  | .object fields => do
      let expression ← Expr.ofJson (← requiredField "expr" fields)
      let name ← stringField "as" fields
      return ⟨expression, name⟩
  | _ => .error (.itemNotObject .compute)

def Levels.ofJson : Json → Reads Levels
  | .string s => if s = "max" then .ok .max else .error .notLevels
  | .number n =>
      match n.int64? with
      | some i => .ok (.depth i)
      | none => .error .notLevels
  | _ => .error .notLevels

namespace SelectItem

def withPath (path : Option Path) (select : Option (List SelectItem)) : Reads SelectItem :=
  match path with
  | some path => .ok ⟨path, select⟩
  | none => .error .selectItemWithoutPath

mutual

def ofJson : Json → Reads SelectItem
  | .string s => do
      let path ← Path.ofJson (.string s)
      withPath path none
  | .object fields => do
      let path ← Path.ofJson (← requiredField "path" fields)
      let select ← absentOr (selectOfField "select" fields)
      withPath path select
  | v => .error (.notSelectItem v)
  termination_by structural v => v

def selectOfJson : Json → Reads (List SelectItem)
  | .array items => ofItems items
  | _ => .error (.notArray "select")
  termination_by structural v => v

def selectOfField (key : String) : List (String × Json) → Option (Reads (List SelectItem))
  | [] => none
  | (k, v) :: rest => if key = k then some (selectOfJson v) else selectOfField key rest
  termination_by structural fields => fields

def ofItems : List Json → Reads (List SelectItem)
  | [] => .ok []
  | v :: rest => do
      let item ← ofJson v
      let items ← ofItems rest
      return item :: items
  termination_by structural items => items

end

theorem selectOfField_eq (key : String) (fields : Fields) :
    selectOfField key fields = (fields.lookup key).map selectOfJson := by
  induction fields with
  | nil => rfl
  | cons field rest ih =>
    obtain ⟨k, v⟩ := field
    rw [selectOfField, lookup_cons, ih]
    split <;> rfl

end SelectItem

def int64OfJson (key : String) : Json → Reads Int64
  | .number n =>
      match n.int64? with
      | some i => .ok i
      | none => .error (.notInteger key)
  | _ => .error (.notInteger key)

def booleanOfJson (key : String) : Json → Reads Bool
  | .boolean b => .ok b
  | _ => .error (.notBoolean key)

/-- The reading of an array item by item. -/
def listOfJson {α : Type} (key : String) (read : Json → Reads α) (v : Json) : Reads (List α) := do
  (← itemsOf (.notArray key) v).mapM read

/-- The reading of a part of a term, told its word. -/
def partField {α : Type} (part : TermPart) (fields : Fields) (read : String → Json → Reads α) :
    Reads (Option α) :=
  optionalField part.word fields (read part.word)

/-- All options of a term but the nested clause, in reading order. -/
def TermOptions.ofFields (fields : Fields) : Reads TermOptions := do
  let filter ← partField .filter fields fun _ => Expr.ofJson
  let orderBy ← partField .orderBy fields fun word => listOfJson word OrderItem.ofJson
  let top ← partField .top fields int64OfJson
  let skip ← partField .skip fields int64OfJson
  let count ← partField .count fields booleanOfJson
  let levels ← partField .levels fields fun _ => Levels.ofJson
  let search ← partField .search fields fun _ => Expr.ofJson
  let select ← partField .select fields fun _ => SelectItem.selectOfJson
  let compute ← partField .compute fields fun word => listOfJson word Computed.ofJson
  let apply ← partField .apply fields fun _ => Expr.listOfJson
  return { filter, orderBy, top, skip, count, levels, search, compute, apply, select }

/-- The first field that names no part of a term. -/
def unknownPart? (fields : Fields) : Option String :=
  (fields.map Prod.fst).find? (!TermPart.words.contains ·)

/-- What comes before the options: no unknown field, and a path that may be missing. -/
def termPath (fields : Fields) : Reads (Option Path) :=
  match unknownPart? fields with
  | some key => .error (.unknownPart key)
  | none => (partField .path fields fun _ => Path.ofJson).map Option.join

namespace Term

mutual

def ofJson : Json → Except TreeFault Term
  | .object fields => do
      let path ← (termPath fields).mapError .document
      let options ← (TermOptions.ofFields fields).mapError .document
      match expandOfField TermPart.expand.word fields with
      | none => (build path options).mapError .term
      | some expand =>
          let expand ← expand
          (build path { options with expand := some expand }).mapError .term
  | _ => .error (.document .termNotObject)
  termination_by structural v => v

def expandOfJson : Json → Except TreeFault (List Term)
  | .array items => ofItems items
  | _ => .error (.document (.notArray TermPart.expand.word))
  termination_by structural v => v

def expandOfField (key : String) : List (String × Json) → Option (Except TreeFault (List Term))
  | [] => none
  | (k, v) :: rest => if key = k then some (expandOfJson v) else expandOfField key rest
  termination_by structural fields => fields

def ofItems : List Json → Except TreeFault (List Term)
  | [] => .ok []
  | v :: rest => do
      let term ← ofJson v
      let terms ← ofItems rest
      return term :: terms
  termination_by structural items => items

end

theorem expandOfField_eq (key : String) (fields : Fields) :
    expandOfField key fields = (fields.lookup key).map expandOfJson := by
  induction fields with
  | nil => rfl
  | cons field rest ih =>
    obtain ⟨k, v⟩ := field
    rw [expandOfField, lookup_cons, ih]
    split <;> rfl

end Term

/-- The clause that a document describes. -/
def clauseOfJson : Json → Except TreeFault Clause
  | .array items => Term.ofItems items
  | .object fields => do return [← Term.ofJson (.object fields)]
  | v => .error (.document (.notTerms v))

def clauseOfText (text : List Char) : Except TreeError Clause :=
  match Json.ofText text with
  | .error cause => .error (.text cause)
  | .ok v => (clauseOfJson v).mapError .ofFault

end ExpandTree
