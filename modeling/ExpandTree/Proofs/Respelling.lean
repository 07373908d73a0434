import ExpandTree.Proofs.ReadingAlike
import Mathlib.Logic.Relation

/-!
Spellings of a tree. A document may spell short what it can also spell at length: a path as a string
or as the array of its segments, an item with its default left out or written down. Whichever way it
is spelled, and however deep, the document is read as the same tree.
-/
namespace ExpandTree

open Json (Fields insertField)

/-- A segment without keys as an array spells it, alone or in an object. -/
inductive SpellsPiece (piece : List Char) : Json → Prop where
  | alone : SpellsPiece piece (.string (String.ofList piece))
  | segment : SpellsPiece piece (.object [("segment", .string (String.ofList piece))])

/-- What is spelled short at a place, and how it is spelled there at length. -/
inductive Respelling : Place → Json → Json → Prop where
  | pieces {s : String} {items : List Json} : [] ∉ s.toList.splitOn '/' →
      List.Forall₂ SpellsPiece (s.toList.splitOn '/') items →
      Respelling .path (.string s) (.array items)
  | selectPath {s : String} : Respelling .selectItem (.string s) (.object [("path", .string s)])
  | ascending {fields : Fields} : fields.lookup "direction" = none →
      Respelling .orderItem (.object fields)
        (.object (insertField "direction" (.string "asc") fields))
  | noArguments {fields : Fields} {function : Json} : fields.lookup "call" = some function →
      fields.lookup "args" = none →
      Respelling .expr (.object fields) (.object (insertField "args" (.array []) fields))
  | groupCount {fields : Fields} : fields.lookup "with" = some (.string "count") →
      fields.lookup "expr" = none →
      Respelling .aggregation (.object fields)
        (.object (insertField "expr" (.object [("property", .string "$count")]) fields))
  | unnamed {fields : Fields} : fields.lookup "name" = none →
      Respelling .key (.object fields) (.object (insertField "name" .null fields))
  | single {fields : Fields} : Respelling .document (.object fields) (.array [.object fields])

/-- One short spelling, at any depth, becomes a long one. -/
inductive Respelled : Place → Json → Json → Prop where
  | here {place : Place} {v w : Json} : Respelling place v w → Respelled place v w
  | field {place inner : Place} {fields : Fields} {key : String} {v w : Json} :
      place.fields.lookup key = some inner → fields.lookup key = some v → Respelled inner v w →
      Respelled place (.object fields) (.object (insertField key w fields))
  | item {place inner : Place} {before after : List Json} {v w : Json} :
      place.item = some inner → Respelled inner v w →
      Respelled place (.array (before ++ v :: after)) (.array (before ++ w :: after))
  | term {a b : Fields} : Respelled .term (.object a) (.object b) →
      Respelled .document (.object a) (.object b)

section Short

variable {fields : Fields}

theorem stringField_insertField {key k : String} (h : k ≠ key) (v : Json) (fields : Fields) :
    stringField k (insertField key v fields) = stringField k fields :=
  stringField_congr (lookup_insertField_of_ne h v fields)

theorem requiredField_insertField {key k : String} (h : k ≠ key) (v : Json) (fields : Fields) :
    requiredField k (insertField key v fields) = requiredField k fields := by
  unfold requiredField
  rw [lookup_insertField_of_ne h]

theorem Path.ofJson_pieces {s : String} {items : List Json} (hs : [] ∉ s.toList.splitOn '/')
    (hitems : List.Forall₂ SpellsPiece (s.toList.splitOn '/') items) :
    ofJson (.string s) = ofJson (.array items) := by
  rw [← pieces_eq_splitOn] at hs hitems
  have hread : items.mapM Segment.ofJson =
      .ok (((pieces s.toList).map String.ofList).map Segment.ofIdentifier) := by
    rw [mapM_eq_ok_iff, List.map_map, List.forall₂_map_right_iff]
    refine List.Forall₂.flip (hitems.imp ?_)
    intro piece item hitem
    cases hitem <;> rfl
  have hne : ((pieces s.toList).map String.ofList).map Segment.ofIdentifier ≠ [] := by
    simp [pieces_eq_splitOn, List.splitOn_ne_nil]
  obtain ⟨p, hp⟩ := exists_segments_eq.mpr hne
  have hstring : ofJson (.string s) = .ok (some p) := ofString_eq_some_iff.mpr ⟨hs, hp⟩
  have harray : ofJson (.array items) = .ok (some p) := by
    rw [ofJson_array_eq_some_iff, hread, hp]
  rw [hstring, harray]

theorem OrderItem.ofJson_ascending (h : fields.lookup "direction" = none) :
    ofJson (.object fields) =
      ofJson (.object (insertField "direction" (.string "asc") fields)) := by
  have hdirection : directionOf (some (.string "asc")) = directionOf none := rfl
  simp (disch := decide) only [ofJson, requiredField_insertField, lookup_insertField_self, h,
    hdirection]

theorem Expr.ofJson_noArguments {function : Json} (hcall : fields.lookup "call" = some function)
    (hargs : fields.lookup "args" = none) :
    ofJson (.object fields) = ofJson (.object (insertField "args" (.array []) fields)) := by
  simp (disch := decide) only [ofJson, ofField_eq, listOfField_eq, aggregateOfField_eq,
    stringField_insertField, lookup_insertField_self, lookup_insertField_of_ne, hcall, hargs,
    Option.isSome_some, if_true, Option.map_some, Option.map_none, absentOr, listOfJson, ofItems,
    Except.map, ok_bind, Option.getD_some, Option.getD_none]

theorem Expr.aggregationOfJson_groupCount (hwith : fields.lookup "with" = some (.string "count"))
    (hexpr : fields.lookup "expr" = none) :
    aggregationOfJson (.object fields) = aggregationOfJson
      (.object (insertField "expr" (.object [("property", .string "$count")]) fields)) := by
  have hcount : ofJson (.object [("property", .string "$count")]) = .ok groupCount := rfl
  have hmethod : AggregationMethod.ofKeyword? "count" = some .count := rfl
  simp (disch := decide) only [aggregationOfJson, ofField_eq, stringField_insertField,
    stringField_of_lookup hwith, lookup_insertField_self, hexpr, Option.map_some, Option.map_none,
    ok_bind, hmethod, hcount, if_true]

theorem KeyValue.ofJson_unnamed (h : fields.lookup "name" = none) :
    ofJson (.object fields) = ofJson (.object (insertField "name" .null fields)) := by
  simp (disch := decide) only [ofJson, lookup_insertField_self, lookup_insertField_of_ne, h,
    nameOf]

theorem clauseOfJson_single :
    clauseOfJson (.object fields) = clauseOfJson (.array [.object fields]) := by
  rw [clauseOfJson, clauseOfJson, Term.ofItems_eq_mapM]
  rfl

end Short

/-- Either spelling is read alike where it stands. -/
theorem Respelling.readsAlike {place : Place} {v w : Json} (h : Respelling place v w) :
    place.ReadsAlike v w := by
  cases h with
  | pieces hs hitems => exact .of_eq (Path.ofJson_pieces hs hitems)
  | selectPath => exact .of_eq rfl
  | ascending h => exact .of_eq (OrderItem.ofJson_ascending h)
  | noArguments hcall hargs => exact .of_eq (Expr.ofJson_noArguments hcall hargs)
  | groupCount hwith hexpr => exact .of_eq (Expr.aggregationOfJson_groupCount hwith hexpr)
  | unnamed h => exact .of_eq (KeyValue.ofJson_unnamed h)
  | single => exact .of_eq clauseOfJson_single

/-- So are the arrays and the objects around it, up to the document. -/
theorem Respelled.readsAlike {place : Place} {v w : Json} (h : Respelled place v w) :
    place.ReadsAlike v w := by
  induction h with
  | here h => exact h.readsAlike
  | field hkey hv _ ih =>
    refine Place.readsAlike_object ?_ (.of_insertField hkey hv ih)
    rintro hempty
    rw [hempty] at hkey
    cases hkey
  | item hitem _ ih => exact Place.readsAlike_array hitem ih _ _
  | term _ ih =>
    intro clause
    simp only [clauseOfJson, bind_eq_ok_iff, ih _]

/-- Whichever of its parts a document spells short or at length, at whatever depth, it describes the
same tree, or none either way. -/
theorem clauseOfJson_respelled {v w : Json} (h : Relation.ReflTransGen (Respelled .document) v w)
    (clause : Clause) : clauseOfJson v = .ok clause ↔ clauseOfJson w = .ok clause := by
  induction h with
  | refl => rfl
  | tail _ hstep ih => exact ih.trans (hstep.readsAlike clause)

/-- A term with a select of one item that expands to one with a filter. -/
def filteredItems (filter path item : Json) : Json :=
  .object [("expand", .array [.object [("filter", filter), ("path", path)]]),
    ("path", .string "Orders"), ("select", .array [item])]

/-- Four short spellings, two of them in a nested term, and the tree that is read either way. -/
theorem clauseOfJson_respelled_filteredItems :
    Relation.ReflTransGen (Respelled .document)
        (filteredItems (.object [("call", .string "now")]) (.string "Items/$ref") (.string "Id"))
        (.array [filteredItems (.object [("args", .array []), ("call", .string "now")])
          (.array [.string "Items", .object [("segment", .string "$ref")]])
          (.object [("path", .string "Id")])]) ∧
      clauseOfJson (.array [filteredItems (.object [("args", .array []), ("call", .string "now")])
          (.array [.string "Items", .object [("segment", .string "$ref")]])
          (.object [("path", .string "Id")])]) =
        .ok [⟨.last ⟨"Orders", .model, none⟩, {}, some [⟨.last ⟨"Id", .model, none⟩, none⟩],
          some [⟨.step ⟨"Items", .model, none⟩ (.last ⟨"$ref", .system, none⟩),
            { filter := some (.call "now" []) }, none, none⟩]⟩] := by
  have hcall : Respelled .expr (.object [("call", .string "now")])
      (.object [("args", .array []), ("call", .string "now")]) := .here (.noArguments rfl rfl)
  have hpath : Respelled .path (.string "Items/$ref")
      (.array [.string "Items", .object [("segment", .string "$ref")]]) :=
    .here (.pieces (by decide) (.cons .alone (.cons .segment .nil)))
  have hitem : Respelled .selectItem (.string "Id") (.object [("path", .string "Id")]) :=
    .here .selectPath
  have hnested : ∀ {filter filter' path path' item : Json},
      Respelled .term (.object [("filter", filter), ("path", path)])
        (.object [("filter", filter'), ("path", path')]) →
      Respelled .document (filteredItems filter path item) (filteredItems filter' path' item) :=
    fun h => .term (@Respelled.field .term .terms _ "expand" _ _ rfl rfl
      (@Respelled.item .terms .term [] [] _ _ rfl h))
  have hselect : ∀ filter path, Respelled .document (filteredItems filter path (.string "Id"))
      (filteredItems filter path (.object [("path", .string "Id")])) :=
    fun filter path => .term (@Respelled.field .term .select _ "select" _ _ rfl rfl
      (@Respelled.item .select .selectItem [] [] _ _ rfl hitem))
  have hrespelled := (((Relation.ReflTransGen.refl.tail
    (hnested (@Respelled.field .term .expr _ "filter" _ _ rfl rfl hcall))).tail
    (hnested (@Respelled.field .term .path _ "path" _ _ rfl rfl hpath))).tail
    (hselect _ _)).tail (.here .single)
  exact ⟨hrespelled, (clauseOfJson_respelled hrespelled _).mp rfl⟩

end ExpandTree
