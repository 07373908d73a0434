import ExpandTree.Proofs.Records

/-!
Normalization as it happens. A run turns the terms around and merges them one after the other, and
puts each step on record when it takes it. It ends in the normalized clause with the records of the
normalization behind those from before, so every merge on record is one that combining makes.
-/
namespace ExpandTree

/-- A computation that may put on record what it does. -/
abbrev Recorded (α : Type) := StateM (List Record) α

namespace Recorded

def record (r : Record) : Recorded Unit := modify (· ++ [r])

section Passes

mutual

/-- The path of a term is on record before the terms below it are turned around. -/
def invert : Term → Recorded Term
  | ⟨path, modifiers, select, none⟩ => do
      record (.inverted path.reversed)
      return ⟨path.reversed, modifiers, select.map SelectItem.invertedAll, none⟩
  | ⟨path, modifiers, select, some terms⟩ => do
      record (.inverted path.reversed)
      let terms ← invertAll terms
      return ⟨path.reversed, modifiers, select.map SelectItem.invertedAll, some terms⟩
  termination_by structural t => t

def invertAll : List Term → Recorded (List Term)
  | [] => return []
  | t :: rest => do
      let t ← invert t
      let rest ← invertAll rest
      return t :: rest
  termination_by structural terms => terms

end

def merge (first second : Term) : Recorded Term := do
  record (.merged first.path)
  return first.merge second

/-- Merges a term into the first of the same path, or puts it at the end. -/
def insert (t : Term) : Clause → Recorded Clause
  | [] => return [t]
  | first :: rest => do
      if first.path.samePath t.path then
        let first ← merge first t
        return first :: rest
      else
        let rest ← insert t rest
        return first :: rest

def insertAll (terms clause : Clause) : Recorded Clause :=
  clause.foldlM (fun terms t => insert t terms) terms

/-- Combines the nested clause of a term, if there is one. -/
def below (combine : Clause → Recorded Clause) (t : Term) : Recorded Term :=
  match t.expand with
  | none => return t
  | some terms => do
      let terms ← combine terms
      return { t with expand := some terms }

/-- Combines a given number of levels, a clause before those below it. -/
def combineTo : Nat → Clause → Recorded Clause
  | 0, clause => return clause
  | levels + 1, clause => do
      let merged ← insertAll [] clause
      merged.mapM (below (combineTo levels))

def normalize (clause : Clause) : Recorded Clause := do
  record (.normalizing clause.length)
  let inverted ← invertAll clause
  combineTo (Summary.ofClause inverted).depth inverted

end Passes

/-- Whatever is on record already, a computation ends in a value and adds the same records. -/
def Yields {α : Type} (p : Recorded α) (a : α) (records : List Record) : Prop :=
  ∀ before, p.run before = (a, before ++ records)

section Yields

variable {α β : Type}

theorem Yields.pure (a : α) : Yields (pure a) a [] := by
  intro before
  rw [List.append_nil]
  rfl

theorem yields_record (r : Record) : Yields (record r) () [r] := fun _ => rfl

theorem Yields.bind {p : Recorded α} {f : α → Recorded β} {a : α} {b : β}
    {records more : List Record} (hp : Yields p a records) (hf : Yields (f a) b more) :
    Yields (p >>= f) b (records ++ more) := by
  intro before
  have hbind : (p >>= f).run before = (f (p.run before).1).run (p.run before).2 := rfl
  rw [hbind, hp, hf, List.append_assoc]

/-- A value that is only put together from another adds no record. -/
theorem Yields.map {p : Recorded α} {a : α} {records : List Record} (hp : Yields p a records)
    (f : α → β) : Yields (p >>= fun a => Pure.pure (f a)) (f a) records := by
  have hbind := hp.bind (f := fun a => Pure.pure (f a)) (.pure (f a))
  rwa [List.append_nil] at hbind

theorem Yields.mapM {f : α → Recorded β} {g : α → β} {records : α → List Record} {as : List α}
    (h : ∀ a ∈ as, Yields (f a) (g a) (records a)) :
    Yields (as.mapM f) (as.map g) (as.flatMap records) := by
  induction as with
  | nil => exact .pure []
  | cons a as ih =>
    obtain ⟨ha, has⟩ := List.forall_mem_cons.mp h
    rw [List.mapM_cons, List.flatMap_cons]
    exact ha.bind ((ih has).map _)

end Yields

section Inversion

theorem yields_invertAll {terms : List Term}
    (h : ∀ t ∈ terms, Yields (invert t) t.inverted t.inversionRecords) :
    Yields (invertAll terms) (Term.invertedAll terms) (Term.inversionRecordsOfAll terms) := by
  induction terms with
  | nil => exact .pure []
  | cons t rest ih =>
    obtain ⟨ht, hrest⟩ := List.forall_mem_cons.mp h
    exact ht.bind ((ih hrest).map _)

theorem yields_invert (t : Term) : Yields (invert t) t.inverted t.inversionRecords := by
  induction t using Term.induction with
  | term path m select expand ih =>
    cases expand with
    | none => exact (yields_record _).map _
    | some terms => exact (yields_record _).bind ((yields_invertAll (ih terms rfl)).map _)

end Inversion

section Combining

/-- What a term merges into is what is put on record, and nothing else is. -/
theorem yields_insert (t : Term) (terms : Clause) :
    Yields (insert t terms) (Clause.insert t terms)
      ((terms.find? (·.path.samePath t.path)).map fun first => .merged first.path).toList := by
  induction terms with
  | nil => exact .pure [t]
  | cons first rest ih =>
    rw [insert, Clause.insert, List.find?_cons]
    by_cases hsame : first.path.samePath t.path = true
    · rw [if_pos hsame, if_pos hsame, hsame]
      exact ((yields_record _).map _).map _
    · rw [if_neg hsame, if_neg hsame, Bool.eq_false_iff.mpr hsame]
      exact ih.map _

theorem yields_insertAll (terms clause : Clause) :
    Yields (insertAll terms clause) (Clause.absorb terms clause)
      (Clause.mergeRecordsInto terms clause) := by
  induction clause generalizing terms with
  | nil => exact .pure terms
  | cons t rest ih =>
    rw [insertAll, List.foldlM_cons, Clause.mergeRecordsInto_cons]
    exact (yields_insert t terms).bind (ih (Clause.insert t terms))

theorem yields_below {combine : Clause → Recorded Clause} {f : Clause → Clause}
    {records : Clause → List Record} (h : ∀ c, Yields (combine c) (f c) (records c)) (t : Term) :
    Yields (below combine t) (t.mapExpand f) ((t.expand.map records).getD []) := by
  obtain ⟨path, m, select, expand⟩ := t
  cases expand with
  | none => exact .pure _
  | some terms => exact (h terms).map _

theorem yields_combineTo (levels : Nat) (clause : Clause) :
    Yields (combineTo levels clause) (Clause.combinedTo levels clause)
      (Clause.combiningRecordsTo levels clause) := by
  induction levels generalizing clause with
  | zero => exact .pure clause
  | succ n ih =>
    exact (yields_insertAll [] clause).bind (.mapM fun t _ => yields_below ih t)

end Combining

/-- A run of the normalization ends in the normalized clause, and what it has put on record are the
records of the normalization, whatever has been on record before. -/
theorem run_normalize (clause : Clause) (before : List Record) :
    (normalize clause).run before = (clause.normalized, before ++ clause.normalizingRecords) := by
  have hinvert : Yields (invertAll clause) clause.inverted (Term.inversionRecordsOfAll clause) :=
    yields_invertAll fun t _ => yields_invert t
  have hcombine : Yields (combineTo (Summary.ofClause clause.inverted).depth clause.inverted)
      clause.normalized clause.inverted.combiningRecords := yields_combineTo _ _
  have hrun : Yields (normalize clause) clause.normalized clause.normalizingRecords :=
    (yields_record (.normalizing clause.length)).bind
      (hinvert.bind (f := fun c => combineTo (Summary.ofClause c).depth c) hcombine)
  exact hrun before

end Recorded

end ExpandTree
