import ExpandTree.Document.Fault

/-!
Fields of document objects. Some readings look a field up and read it in one go, so that they
recurse on the document itself; they find what a lookup followed by a reading finds.
-/
namespace ExpandTree

open Json (Fields)

/-- What a reading gives unless the document is at fault. -/
abbrev Reads := Except DocumentFault

theorem lookup_cons (key k : String) (v : Json) (rest : Fields) :
    List.lookup key ((k, v) :: rest) = if key = k then some v else List.lookup key rest := by
  by_cases h : key = k
  · rw [if_pos h, h, List.lookup_cons_self]
  · have hk : (key == k) = false := by simpa using h
    rw [if_neg h, List.lookup_cons, hk]

theorem mem_of_lookup {key : String} {v : Json} {fields : Fields}
    (h : List.lookup key fields = some v) : (key, v) ∈ fields := by
  obtain ⟨before, after, rfl, -⟩ := List.lookup_eq_some_iff.mp h
  exact List.mem_append_cons_self

/-- A field that is put into an object is found there, and hides no other. -/
theorem lookup_insertField (key k : String) (v : Json) (fields : Fields) :
    List.lookup k (Json.insertField key v fields) =
      if k = key then some v else List.lookup k fields := by
  induction fields with
  | nil => rw [Json.insertField, lookup_cons]
  | cons field rest ih =>
    obtain ⟨k', w⟩ := field
    rw [Json.insertField]
    split
    · rw [lookup_cons]
    · split
      · rename_i hsame
        subst hsame
        rw [lookup_cons, lookup_cons]
        split <;> rfl
      · rename_i hother
        rw [lookup_cons, lookup_cons, ih]
        by_cases hk : k = k'
        · rw [if_pos hk, if_pos hk, hk, if_neg (Ne.symm hother)]
        · rw [if_neg hk, if_neg hk]

theorem lookup_insertField_self (key : String) (v : Json) (fields : Fields) :
    List.lookup key (Json.insertField key v fields) = some v := by
  rw [lookup_insertField, if_pos rfl]

theorem lookup_insertField_of_ne {key k : String} (h : k ≠ key) (v : Json) (fields : Fields) :
    List.lookup k (Json.insertField key v fields) = List.lookup k fields := by
  rw [lookup_insertField, if_neg h]

theorem mem_keys_iff {key : String} {fields : Fields} :
    key ∈ fields.map Prod.fst ↔ List.lookup key fields ≠ none := by
  simp [List.lookup_eq_none_iff]

/-- The keys of an object after a field was put into it. -/
theorem mem_keys_insertField {key k : String} {v : Json} {fields : Fields} :
    k ∈ (Json.insertField key v fields).map Prod.fst ↔ k = key ∨ k ∈ fields.map Prod.fst := by
  rw [mem_keys_iff, mem_keys_iff, lookup_insertField]
  split <;> simp [*]

def requiredField (key : String) (fields : Fields) : Reads Json :=
  match fields.lookup key with
  | some v => .ok v
  | none => .error (.missing key)

def stringField (key : String) (fields : Fields) : Reads String := do
  match ← requiredField key fields with
  | .string s => return s
  | _ => throw (.notString key)

/-- The reading of an optional field; absent it reads as `none`. -/
def optionalField {α : Type} (key : String) (fields : Fields) (read : Json → Reads α) :
    Reads (Option α) :=
  match fields.lookup key with
  | none => .ok none
  | some v => (read v).map some

/-- A field that may be absent, already read where it is present. -/
def absentOr {α : Type} : Option (Reads α) → Reads (Option α)
  | none => .ok none
  | some reading => reading.map some

/-- A field that must be present, already read. -/
def present {α : Type} (key : String) : Option (Reads α) → Reads α
  | none => .error (.missing key)
  | some reading => reading

def itemsOf (fault : DocumentFault) : Json → Reads (List Json)
  | .array items => .ok items
  | _ => .error fault

end ExpandTree
