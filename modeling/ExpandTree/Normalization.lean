import ExpandTree.Token

/-!
Normalization of expand trees. Inversion turns every navigation and select path around. Combining
merges the terms of a clause that name the same path into the first of them, at every level: the
first term's options win, selects are united and nested clauses joined. Normalizing inverts and
then combines.
-/
namespace ExpandTree

namespace SelectItem

mutual

def inverted : SelectItem → SelectItem
  | ⟨path, none⟩ => ⟨path.reversed, none⟩
  | ⟨path, some items⟩ => ⟨path.reversed, some (invertedAll items)⟩
  termination_by structural item => item

def invertedAll : List SelectItem → List SelectItem
  | [] => []
  | item :: rest => item.inverted :: invertedAll rest
  termination_by structural items => items

end

end SelectItem

namespace Term

mutual

def inverted : Term → Term
  | ⟨path, modifiers, select, none⟩ =>
      ⟨path.reversed, modifiers, select.map SelectItem.invertedAll, none⟩
  | ⟨path, modifiers, select, some terms⟩ =>
      ⟨path.reversed, modifiers, select.map SelectItem.invertedAll, some (invertedAll terms)⟩
  termination_by structural t => t

def invertedAll : List Term → List Term
  | [] => []
  | t :: rest => t.inverted :: invertedAll rest
  termination_by structural terms => terms

end

end Term

/-- Appends the items that equal none before them. -/
def unite (first : Select) : Select → Select
  | [] => first
  | item :: rest => unite (if first.contains item then first else first ++ [item]) rest

/-- Joins two optional lists; an absent one gives way to the other. -/
def joinOptions {α : Type} (join : α → α → α) : Option α → Option α → Option α
  | none, second => second
  | first, none => first
  | some first, some second => some (join first second)

/-- The first term with select and expand of both. -/
def Term.merge (first second : Term) : Term :=
  { first with
    select := joinOptions unite first.select second.select
    expand := joinOptions List.append first.expand second.expand }

namespace Clause

def inverted (clause : Clause) : Clause := Term.invertedAll clause

/-- Merges a term into the first of the same path, or puts it at the end. -/
def insert (t : Term) : Clause → Clause
  | [] => [t]
  | first :: rest =>
      if first.path.samePath t.path then first.merge t :: rest else first :: insert t rest

/-- Merges the terms of one clause; nested clauses are left as they are. -/
def merged (clause : Clause) : Clause := clause.foldl (fun terms t => insert t terms) []

/-- Combines a given number of levels. -/
def combinedTo : Nat → Clause → Clause
  | 0, clause => clause
  | levels + 1, clause => (merged clause).map (Term.mapExpand (combinedTo levels))

/-- Combines all levels: merging never makes a tree deeper. -/
def combined (clause : Clause) : Clause := combinedTo (Summary.ofClause clause).depth clause

def normalized (clause : Clause) : Clause := clause.inverted.combined

end Clause

end ExpandTree
