import ExpandTree.Proofs.Acceptance

/-!
Directions of order items. A document is refused for a direction that is a string and no keyword, at
whatever depth the term with the item stands. A direction that is no string passes as the ascending
one: the document with "asc" in its place is read in the same way.
-/
namespace ExpandTree

open Json (Fields)

namespace Json

/-- An object with the value of each field replaced. -/
def mapValues (f : String → Json → Json) (fields : Fields) : Fields :=
  fields.map fun field => (field.1, f field.1 field.2)

theorem lookup_mapValues (f : String → Json → Json) (fields : Fields) (key : String) :
    List.lookup key (mapValues f fields) = (List.lookup key fields).map (f key) := by
  induction fields with
  | nil => rfl
  | cons field rest ih =>
    obtain ⟨k, v⟩ := field
    change List.lookup key ((k, f k v) :: mapValues f rest) = _
    rw [lookup_cons, lookup_cons, ih]
    split
    · rename_i hkey
      rw [hkey, Option.map_some]
    · rfl

theorem keys_mapValues (f : String → Json → Json) (fields : Fields) :
    (mapValues f fields).map Prod.fst = fields.map Prod.fst := by
  rw [mapValues, List.map_map]
  rfl

/-- Ascending in place of what is no string. -/
def spelledDirection : Json → Json
  | .string s => .string s
  | _ => .string Direction.ascending.keyword

def spelledOrderItem : Json → Json
  | .object fields =>
      .object (mapValues (fun key v => if key = "direction" then spelledDirection v else v) fields)
  | v => v

def spelledOrderItems : Json → Json
  | .array items => .array (items.map spelledOrderItem)
  | v => v

mutual

/-- A term in which every direction is spelled, at every depth. -/
def spelledTerm : Json → Json
  | .object fields => .object (spelledFields fields)
  | v => v
  termination_by structural v => v

def spelledTerms : Json → Json
  | .array items => .array (spelledItems items)
  | v => v
  termination_by structural v => v

def spelledFields : List (String × Json) → List (String × Json)
  | [] => []
  | (key, v) :: rest =>
      (key, if key = "orderby" then spelledOrderItems v
        else if key = "expand" then spelledTerms v
        else v) :: spelledFields rest
  termination_by structural fields => fields

def spelledItems : List Json → List Json
  | [] => []
  | v :: rest => v.spelledTerm :: spelledItems rest
  termination_by structural items => items

end

/-- A document in which every direction is spelled. -/
def spelled : Json → Json
  | .array items => .array (spelledItems items)
  | v => v.spelledTerm

def spelledPart (key : String) (v : Json) : Json :=
  if key = "orderby" then spelledOrderItems v else if key = "expand" then spelledTerms v else v

theorem spelledItems_eq_map (items : List Json) : spelledItems items = items.map spelledTerm :=
  eq_map_of_cons rfl (fun _ _ => rfl) items

theorem spelledFields_eq (fields : Fields) : spelledFields fields = mapValues spelledPart fields :=
  eq_map_of_cons rfl (fun _ _ => rfl) fields

end Json

open Json

theorem OrderItem.directionOf_spelled (direction : Option Json) :
    directionOf (direction.map spelledDirection) = directionOf direction := by
  cases direction with
  | none => rfl
  | some v => cases v <;> rfl

theorem OrderItem.ofJson_spelled (v : Json) : ofJson v.spelledOrderItem = ofJson v := by
  cases v with
  | object fields =>
    have hexpr : requiredField "expr" (mapValues
        (fun key v => if key = "direction" then spelledDirection v else v) fields) =
        requiredField "expr" fields := by
      unfold requiredField
      rw [lookup_mapValues]
      cases fields.lookup "expr" <;> rfl
    have hdirection := directionOf_spelled (fields.lookup "direction")
    rw [spelledOrderItem, ofJson, ofJson, hexpr, lookup_mapValues]
    simp only [if_true, hdirection]
  | null | boolean | number | string | array => rfl

section Spelled

theorem mapM_map_congr {ε α : Type} {read : Json → Except ε α} {f : Json → Json}
    {items : List Json} (h : ∀ v ∈ items, read (f v) = read v) :
    (items.map f).mapM read = items.mapM read := by
  induction items with
  | nil => rfl
  | cons v rest ih =>
    obtain ⟨hv, hrest⟩ := List.forall_mem_cons.mp h
    rw [List.map_cons, List.mapM_cons, List.mapM_cons, hv, ih hrest]

theorem listOfJson_spelled (key : String) (v : Json) :
    listOfJson key OrderItem.ofJson v.spelledOrderItems = listOfJson key OrderItem.ofJson v := by
  cases v with
  | array items => exact mapM_map_congr fun v _ => OrderItem.ofJson_spelled v
  | null | boolean | number | string | object => rfl

theorem partField_spelled {α : Type} {part : TermPart} {read : String → Json → Reads α}
    (h : ∀ v, read part.word (spelledPart part.word v) = read part.word v) (fields : Fields) :
    partField part (mapValues spelledPart fields) read = partField part fields read := by
  rw [partField_eq, partField_eq, lookup_mapValues]
  cases fields.lookup part.word with
  | none => rfl
  | some v => rw [Option.map_some, optionMapM_some, optionMapM_some, h]

theorem TermOptions.ofFields_spelled (fields : Fields) :
    ofFields (mapValues spelledPart fields) = ofFields fields := by
  have horderBy := @partField_spelled _ .orderBy (fun word => listOfJson word OrderItem.ofJson)
    (fun v => listOfJson_spelled _ v) fields
  have hother : ∀ part : TermPart, part ≠ .orderBy → part ≠ .expand →
      ∀ {α : Type} (read : String → Json → Reads α),
        partField part (mapValues spelledPart fields) read = partField part fields read := by
    intro part horder hexpand α read
    refine partField_spelled (fun v => ?_) fields
    cases part <;> first | rfl | contradiction
  unfold ofFields
  rw [hother .filter nofun nofun, horderBy, hother .top nofun nofun, hother .skip nofun nofun,
    hother .count nofun nofun, hother .levels nofun nofun, hother .search nofun nofun,
    hother .select nofun nofun, hother .compute nofun nofun, hother .apply nofun nofun]

theorem termPath_spelled (fields : Fields) :
    termPath (mapValues spelledPart fields) = termPath fields := by
  have hunknown : unknownPart? (mapValues spelledPart fields) = unknownPart? fields := by
    rw [unknownPart?, keys_mapValues, unknownPart?]
  rw [termPath, hunknown, partField_spelled (fun _ => rfl), termPath]

namespace Term

/-- A term, and a list of terms, are read as they are with every direction spelled. -/
theorem ofJson_spelled (v : Json) :
    ofJson v.spelledTerm = ofJson v ∧ expandOfJson v.spelledTerms = expandOfJson v := by
  induction v using Json.induction with
  | array items ih =>
    refine ⟨rfl, ?_⟩
    rw [spelledTerms, spelledItems_eq_map, expandOfJson, expandOfJson, ofItems_eq_mapM,
      ofItems_eq_mapM]
    exact mapM_map_congr fun v hv => (ih v hv).1
  | object fields ih =>
    refine ⟨?_, rfl⟩
    have hexpand : expandOfField TermPart.expand.word (mapValues spelledPart fields) =
        expandOfField TermPart.expand.word fields := by
      rw [expandOfField_eq, expandOfField_eq, lookup_mapValues]
      cases hlookup : fields.lookup TermPart.expand.word with
      | none => rfl
      | some v => exact congrArg some (ih _ (mem_of_lookup hlookup)).2
    rw [spelledTerm, spelledFields_eq, ofJson, ofJson, termPath_spelled,
      TermOptions.ofFields_spelled, hexpand]
  | null | boolean | number | string => exact ⟨rfl, rfl⟩

end Term

theorem clauseOfJson_spelled (v : Json) : clauseOfJson v.spelled = clauseOfJson v := by
  cases v with
  | array items =>
    rw [spelled, spelledItems_eq_map, clauseOfJson, clauseOfJson, Term.ofItems_eq_mapM,
      Term.ofItems_eq_mapM]
    exact mapM_map_congr fun v _ => (Term.ofJson_spelled v).1
  | object fields =>
    have hterm : Term.ofJson (.object (spelledFields fields)) = Term.ofJson (.object fields) :=
      (Term.ofJson_spelled (.object fields)).1
    change clauseOfJson (.object (spelledFields fields)) = _
    rw [clauseOfJson, clauseOfJson, hterm]
  | null | boolean | number | string => rfl

end Spelled

namespace Json

/-- A term of a document, by its fields: one at the top, or one that a term expands to. -/
inductive HasTerm : Json → Fields → Prop where
  | single {fields : Fields} : HasTerm (.object fields) fields
  | member {items : List Json} {fields : Fields} : .object fields ∈ items →
      HasTerm (.array items) fields
  | nested {v : Json} {outer fields : Fields} {items : List Json} : HasTerm v outer →
      outer.lookup "expand" = some (.array items) → .object fields ∈ items → HasTerm v fields

/-- An item by which some term of the document is ordered. -/
def HasOrderItem (v : Json) (item : Fields) : Prop :=
  ∃ fields items, v.HasTerm fields ∧ fields.lookup "orderby" = some (.array items) ∧
    .object item ∈ items

end Json

section Refused

variable {v : Json} {clause : Clause}

/-- Every term of a document that is read is read. -/
theorem Json.HasTerm.exists_ofJson {fields : Fields} (hterm : v.HasTerm fields)
    (h : clauseOfJson v = .ok clause) : ∃ t, Term.ofJson (.object fields) = .ok t := by
  induction hterm with
  | single =>
    obtain ⟨t, ht, -⟩ := bind_eq_ok_iff.mp h
    exact ⟨t, ht⟩
  | member hmem =>
    rw [clauseOfJson, Term.ofItems_eq_mapM] at h
    obtain ⟨t, -, ht⟩ := exists_mem_of_mapM h hmem
    exact ⟨t, ht⟩
  | nested _ hexpand hmem ih =>
    obtain ⟨outer, houter⟩ := ih h
    obtain ⟨-, -, hnested⟩ := Term.ofJson_object_eq_ok_iff.mp houter
    rw [TermPart.word, hexpand, optionMapM_some] at hnested
    obtain ⟨terms, hterms, -⟩ := map_eq_ok_iff.mp hnested
    obtain ⟨items, hitems, hread⟩ := Term.expandOfJson_eq_ok_iff.mp hterms
    cases hitems
    obtain ⟨t, -, ht⟩ := exists_mem_of_mapM hread hmem
    exact ⟨t, ht⟩

theorem Json.HasOrderItem.exists_ofJson {item : Fields} (hitem : v.HasOrderItem item)
    (h : clauseOfJson v = .ok clause) : ∃ i, OrderItem.ofJson (.object item) = .ok i := by
  obtain ⟨fields, items, hterm, horderBy, hmem⟩ := hitem
  obtain ⟨t, ht⟩ := hterm.exists_ofJson h
  obtain ⟨-, hoptions, -⟩ := Term.ofJson_object_eq_ok_iff.mp ht
  have hread := hoptions.orderBy
  rw [partField_eq, TermPart.word, horderBy, optionMapM_some] at hread
  obtain ⟨ordered, hordered, -⟩ := map_eq_ok_iff.mp hread
  obtain ⟨vs, hvs, hmembers⟩ := listOfJson_eq_ok_iff.mp hordered
  cases hvs
  obtain ⟨i, -, hi⟩ := exists_mem_of_mapM hmembers hmem
  exact ⟨i, hi⟩

theorem refused_of_unknownDirection {item : Fields} (hitem : v.HasOrderItem item) {s : String}
    (hs : item.lookup "direction" = some (.string s)) (hasc : s ≠ "asc") (hdesc : s ≠ "desc") :
    ∃ fault, clauseOfJson v = .error fault := by
  cases h : clauseOfJson v with
  | error fault => exact ⟨fault, rfl⟩
  | ok clause =>
    obtain ⟨-, hdirection⟩ := OrderItem.exists_ofJson_iff.mp (hitem.exists_ofJson h)
    rcases hdirection s hs with heq | heq
    · exact absurd heq hasc
    · exact absurd heq hdesc

end Refused

/-- A document with a direction that is a string and no keyword is refused. Other values of a
direction are never noticed: with "asc" in the place of each of them the document is read as it
is. -/
theorem clauseOfJson_directions (v : Json) :
    clauseOfJson v.spelled = clauseOfJson v ∧
      ∀ item s, v.HasOrderItem item → item.lookup "direction" = some (.string s) → s ≠ "asc" →
        s ≠ "desc" → ∃ fault, clauseOfJson v = .error fault :=
  ⟨clauseOfJson_spelled v, fun _ _ hitem hs => refused_of_unknownDirection hitem hs⟩

/-- A term ordered by one item with this direction. -/
def orderedBy (direction : Json) : Json :=
  .object [("orderby", .array [.object [("direction", direction), ("expr", .string "*")]]),
    ("path", .string "Items")]

/-- A wrong direction one level down. -/
def upwards : Json :=
  .object [("expand", .array [orderedBy (.string "up")]), ("path", .string "Orders")]

theorem clauseOfJson_directions_upwards :
    upwards.HasOrderItem [("direction", .string "up"), ("expr", .string "*")] ∧
      ∃ fault, clauseOfJson upwards = .error fault := by
  have hitem : upwards.HasOrderItem [("direction", .string "up"), ("expr", .string "*")] :=
    ⟨_, _, .nested .single rfl List.mem_cons_self, rfl, List.mem_cons_self⟩
  exact ⟨hitem, (clauseOfJson_directions upwards).2 _ "up" hitem rfl (by decide) (by decide)⟩

/-- A number as direction passes for the ascending one. -/
theorem clauseOfJson_numberDirection :
    (orderedBy (.number (.integer 1))).HasOrderItem
        [("direction", .number (.integer 1)), ("expr", .string "*")] ∧
      clauseOfJson (orderedBy (.number (.integer 1))) =
        .ok [⟨.last ⟨"Items", .model, none⟩, { orderBy := some [⟨.star, .ascending⟩] },
          none, none⟩] :=
  ⟨⟨_, _, .single, rfl, List.mem_cons_self⟩, rfl⟩

end ExpandTree
