import ExpandTree.Document.Reader
import ExpandTree.Proofs.Contents
import ExpandTree.Proofs.PathSpelling

/-!
What reading a term comes down to. An object is read as a term exactly when each of its parts is
read, so whatever every reading of a path guarantees holds of all paths of a tree that was read.
-/
namespace ExpandTree

open Json (Fields)

namespace TermPart

theorem mem_all (part : TermPart) : part ∈ all := by
  cases part <;> decide

theorem word_mem_words (part : TermPart) : part.word ∈ words := List.mem_map_of_mem part.mem_all

end TermPart

section Fields

variable {α : Type} {fields : Fields}

theorem requiredField_eq_ok_iff {key : String} {v : Json} :
    requiredField key fields = .ok v ↔ fields.lookup key = some v := by
  unfold requiredField
  cases fields.lookup key <;> simp

theorem partField_eq (part : TermPart) (read : String → Json → Reads α) :
    partField part fields read = (fields.lookup part.word).mapM (read part.word) := by
  unfold partField optionalField
  cases fields.lookup part.word with
  | none => rfl
  | some v => exact optionMapM_some.symm

/-- A part is read as before when another field is put into the object. -/
theorem partField_insertField {part : TermPart} {key : String} (h : part.word ≠ key) (v : Json)
    (read : String → Json → Reads α) :
    partField part (Json.insertField key v fields) read = partField part fields read := by
  rw [partField_eq, partField_eq, lookup_insertField_of_ne h]

end Fields

namespace SelectItem

theorem selectOfJson_eq_ok_iff {v : Json} {items : Select} :
    selectOfJson v = .ok items ↔ ∃ vs, v = .array vs ∧ vs.mapM ofJson = .ok items := by
  cases v <;> simp [selectOfJson, ofItems_eq_mapM]

theorem exists_of_mem_select {v : Option Json} {select : Option Select}
    (h : v.mapM selectOfJson = .ok select) {items : Select} (hitems : items ∈ select)
    {item : SelectItem} (hitem : item ∈ items) : ∃ v, ofJson v = .ok item := by
  obtain ⟨w, hw⟩ := exists_of_mem_of_optionMapM h hitems
  obtain ⟨vs, -, hvs⟩ := selectOfJson_eq_ok_iff.mp hw
  exact exists_of_mem_of_mapM hvs hitem

theorem withPath_eq_ok_iff {path : Option Path} {select : Option Select} {item : SelectItem} :
    withPath path select = .ok item ↔ path = some item.path ∧ select = item.select := by
  obtain ⟨p, s⟩ := item
  cases path <;> simp [withPath]

theorem ofJson_string_eq_ok_iff {text : String} {item : SelectItem} :
    ofJson (.string text) = .ok item ↔
      Path.ofJson (.string text) = .ok (some item.path) ∧ item.select = none := by
  simp only [ofJson, bind_eq_ok_iff, withPath_eq_ok_iff]
  constructor
  · intro h
    obtain ⟨path, hpath, rfl, hselect⟩ := h
    exact ⟨hpath, hselect.symm⟩
  · intro h
    obtain ⟨hpath, hselect⟩ := h
    exact ⟨_, hpath, rfl, hselect.symm⟩

theorem ofJson_object_eq_ok_iff {fields : Fields} {item : SelectItem} :
    ofJson (.object fields) = .ok item ↔
      (∃ v, fields.lookup "path" = some v ∧ Path.ofJson v = .ok (some item.path)) ∧
        (fields.lookup "select").mapM selectOfJson = .ok item.select := by
  simp only [ofJson, bind_eq_ok_iff, requiredField_eq_ok_iff, selectOfField_eq, absentOr_map,
    withPath_eq_ok_iff]
  constructor
  · intro h
    obtain ⟨v, hv, path, hpath, select, hselect, rfl, rfl⟩ := h
    exact ⟨⟨v, hv, hpath⟩, hselect⟩
  · intro h
    obtain ⟨⟨v, hv, hpath⟩, hselect⟩ := h
    exact ⟨v, hv, _, hpath, _, hselect, rfl, rfl⟩

theorem kindsShown_of_ofJson {v : Json} {item : SelectItem} (h : ofJson v = .ok item) :
    ∀ p ∈ item.paths, p.KindsShown := by
  induction item using SelectItem.induction generalizing v with
  | item path select ih =>
    rw [forall_paths_iff]
    cases v with
    | string text =>
      obtain ⟨hpath, hselect⟩ := ofJson_string_eq_ok_iff.mp h
      cases hselect
      exact ⟨Path.kindsShown_of_ofJson hpath, fun items hitems => by contradiction⟩
    | object fields =>
      obtain ⟨⟨w, -, hpath⟩, hselect⟩ := ofJson_object_eq_ok_iff.mp h
      refine ⟨Path.kindsShown_of_ofJson hpath, ?_⟩
      intro items hitems item hitem
      obtain ⟨w, hw⟩ := exists_of_mem_select hselect hitems hitem
      exact ih items hitems item hitem hw
    | null | boolean | number | array => cases h

end SelectItem

/-- The options of a term, each read from its field. -/
structure TermOptions.ReadFrom (fields : Fields) (o : TermOptions) : Prop where
  filter : partField .filter fields (fun _ => Expr.ofJson) = .ok o.filter
  orderBy : partField .orderBy fields (fun word => listOfJson word OrderItem.ofJson) = .ok o.orderBy
  top : partField .top fields int64OfJson = .ok o.top
  skip : partField .skip fields int64OfJson = .ok o.skip
  count : partField .count fields booleanOfJson = .ok o.count
  levels : partField .levels fields (fun _ => Levels.ofJson) = .ok o.levels
  search : partField .search fields (fun _ => Expr.ofJson) = .ok o.search
  select : partField .select fields (fun _ => SelectItem.selectOfJson) = .ok o.select
  compute : partField .compute fields (fun word => listOfJson word Computed.ofJson) = .ok o.compute
  apply : partField .apply fields (fun _ => Expr.listOfJson) = .ok o.apply
  expand : o.expand = none

theorem TermOptions.ofFields_eq_ok_iff {fields : Fields} {o : TermOptions} :
    ofFields fields = .ok o ↔ ReadFrom fields o := by
  simp only [ofFields, bind_eq_ok_iff, pure_eq_ok, Except.ok.injEq]
  constructor
  · intro h
    obtain ⟨_, hfilter, _, horderBy, _, htop, _, hskip, _, hcount, _, hlevels, _, hsearch, _,
      hselect, _, hcompute, _, happly, rfl⟩ := h
    exact ⟨hfilter, horderBy, htop, hskip, hcount, hlevels, hsearch, hselect, hcompute, happly, rfl⟩
  · intro h
    obtain ⟨hfilter, horderBy, htop, hskip, hcount, hlevels, hsearch, hselect, hcompute, happly,
      hexpand⟩ := h
    refine ⟨_, hfilter, _, horderBy, _, htop, _, hskip, _, hcount, _, hlevels, _, hsearch, _,
      hselect, _, hcompute, _, happly, ?_⟩
    obtain ⟨m, select, expand⟩ := o
    cases hexpand
    rfl

theorem termPath_eq_ok_iff {fields : Fields} {p : Path} :
    termPath fields = .ok (some p) ↔
      unknownPart? fields = none ∧
        ∃ v, fields.lookup TermPart.path.word = some v ∧ Path.ofJson v = .ok (some p) := by
  unfold termPath
  cases unknownPart? fields with
  | some key => simp
  | none =>
    simp only [partField_eq, map_eq_ok_iff, true_and]
    cases fields.lookup TermPart.path.word with
    | none =>
      constructor
      · intro h
        obtain ⟨path, hpath, h⟩ := h
        cases hpath
        contradiction
      · intro h
        obtain ⟨v, hv, -⟩ := h
        contradiction
    | some v =>
      rw [optionMapM_some]
      simp only [map_eq_ok_iff, Option.some.injEq, exists_eq_left']
      constructor
      · intro h
        obtain ⟨_, ⟨path, hpath, rfl⟩, h⟩ := h
        rw [Option.join_some] at h
        rw [hpath, h]
      · intro hpath
        exact ⟨_, ⟨_, hpath, rfl⟩, rfl⟩

namespace Term

theorem expandOfJson_eq_ok_iff {v : Json} {terms : Clause} :
    expandOfJson v = .ok terms ↔ ∃ vs, v = .array vs ∧ vs.mapM ofJson = .ok terms := by
  cases v <;> simp [expandOfJson, ofItems_eq_mapM]

theorem build_eq_ok_iff {path : Option Path} {o : TermOptions} {t : Term} :
    build path o = .ok t ↔ path = some t.path ∧ o = t.options := by
  obtain ⟨p, m, select, expand⟩ := t
  obtain ⟨m', select', expand'⟩ := o
  cases path <;> simp [build, options]

/-- An object is a term exactly when its path, its options and its nested clause are read. -/
theorem ofJson_object_eq_ok_iff {fields : Fields} {t : Term} :
    ofJson (.object fields) = .ok t ↔
      termPath fields = .ok (some t.path) ∧
        TermOptions.ReadFrom fields { t.modifiers with select := t.select } ∧
          (fields.lookup TermPart.expand.word).mapM expandOfJson = .ok t.expand := by
  obtain ⟨p, m, select, expand⟩ := t
  simp only [ofJson, bind_eq_ok_iff, mapError_eq_ok_iff, expandOfField_eq,
    TermOptions.ofFields_eq_ok_iff]
  cases fields.lookup TermPart.expand.word with
  | none =>
    simp only [Option.map_none, mapError_eq_ok_iff, build_eq_ok_iff]
    constructor
    · intro h
      obtain ⟨_, hpath, o, hoptions, rfl, rfl⟩ := h
      cases hoptions.expand
      exact ⟨hpath, hoptions, rfl⟩
    · intro h
      obtain ⟨hpath, hoptions, hexpand⟩ := h
      cases hexpand
      exact ⟨_, hpath, _, hoptions, rfl, rfl⟩
  | some v =>
    simp only [Option.map_some, bind_eq_ok_iff, mapError_eq_ok_iff, build_eq_ok_iff,
      optionMapM_some, map_eq_ok_iff]
    constructor
    · intro h
      obtain ⟨_, hpath, ⟨m', select', expand'⟩, hoptions, terms, hterms, rfl, heq⟩ := h
      cases hoptions.expand
      cases heq
      exact ⟨hpath, hoptions, terms, hterms, rfl⟩
    · intro h
      obtain ⟨hpath, hoptions, terms, hterms, hexpand⟩ := h
      cases hexpand
      exact ⟨_, hpath, _, hoptions, terms, hterms, rfl, rfl⟩

theorem kindsShown_of_ofJson {v : Json} {t : Term} (h : ofJson v = .ok t) :
    ∀ p ∈ t.paths, p.KindsShown := by
  induction t using Term.induction generalizing v with
  | term path m select expand ih =>
    cases v with
    | object fields =>
      obtain ⟨hpath, hoptions, hexpand⟩ := ofJson_object_eq_ok_iff.mp h
      obtain ⟨-, w, -, hread⟩ := termPath_eq_ok_iff.mp hpath
      rw [forall_paths_iff]
      refine ⟨Path.kindsShown_of_ofJson hread, ?_, ?_⟩
      · intro items hitems item hitem
        have hselect := hoptions.select
        rw [partField_eq] at hselect
        obtain ⟨w, hw⟩ := SelectItem.exists_of_mem_select hselect hitems hitem
        exact SelectItem.kindsShown_of_ofJson hw
      · intro terms hterms t ht
        obtain ⟨w, hw⟩ := exists_of_mem_of_optionMapM hexpand hterms
        obtain ⟨vs, -, hvs⟩ := expandOfJson_eq_ok_iff.mp hw
        obtain ⟨u, hu⟩ := exists_of_mem_of_mapM hvs ht
        exact ih terms hterms t ht hu
    | null | boolean | number | string | array => cases h

end Term

/-- However a document spells its paths, those of the tree it describes show their kinds. -/
theorem kindsShown_of_clauseOfJson {v : Json} {clause : Clause} (h : clauseOfJson v = .ok clause) :
    ∀ p ∈ clause.paths, p.KindsShown := by
  rw [Clause.forall_paths_iff]
  intro t ht
  cases v with
  | array items =>
    rw [clauseOfJson, Term.ofItems_eq_mapM] at h
    obtain ⟨v, hv⟩ := exists_of_mem_of_mapM h ht
    exact Term.kindsShown_of_ofJson hv
  | object fields =>
    obtain ⟨t', hread, h⟩ := bind_eq_ok_iff.mp h
    cases h
    rw [List.mem_singleton.mp ht]
    exact Term.kindsShown_of_ofJson hread
  | null | boolean | number | string => cases h

end ExpandTree
