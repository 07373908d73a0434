import ExpandTree.Proofs.ExprRereading
import ExpandTree.Proofs.TermReading
import Mathlib.Data.List.Nodup

/-!
Trees that read back. The document of a tree holds each part of each term under a word of its own,
so the tree reads back exactly when its expressions and its paths do. Expressions always do, NaNs
apart; what decides is how the paths are spelled.
-/
namespace ExpandTree

open Json (Fields)

namespace TermPart

theorem word_injective {a b : TermPart} (h : a.word = b.word) : a = b := by
  have hnodup : (all.map word).Nodup := by decide
  exact List.inj_on_of_nodup_map hnodup a.mem_all b.mem_all h

/-- The parts of a term in the order of their words. -/
def sorted : List TermPart :=
  [.apply, .compute, .count, .expand, .filter, .levels, .orderBy, .path, .search, .select, .skip,
   .top]

theorem mem_sorted (part : TermPart) : part ∈ sorted := by
  cases part <;> decide

theorem field_none (part : TermPart) : part.field none = none := rfl

theorem field_some (part : TermPart) (v : Json) : part.field (some v) = some (part.word, v) := rfl

theorem lookup_filterMap_field (parts : List TermPart) (value : TermPart → Option Json)
    (part : TermPart) :
    (parts.filterMap fun p => p.field (value p)).lookup part.word =
      if part ∈ parts then value part else none := by
  induction parts with
  | nil => rfl
  | cons p rest ih =>
    rw [List.filterMap_cons]
    by_cases hpart : part = p
    · subst hpart
      cases hvalue : value part with
      | none => simp only [field_none, ih, hvalue, ite_self]
      | some v => simp only [field_some, List.lookup_cons_self, List.mem_cons_self, if_true]
    · have hword : part.word ≠ p.word := fun h => hpart (word_injective h)
      have hmem : part ∈ p :: rest ↔ part ∈ rest := by
        rw [List.mem_cons, or_iff_right hpart]
      cases value p with
      | none => simp only [field_none, ih, hmem]
      | some v => simp only [field_some, lookup_cons, if_neg hword, ih, hmem]

end TermPart

namespace Term

variable (path : Path) (m : Modifiers) (select : Option Select) (expand : Option Json)

/-- What is written for a part of a term. -/
def partValue : TermPart → Option Json
  | .path => some path.toJson
  | .filter => m.filter.map Expr.toJson
  | .orderBy => m.orderBy.map orderByJson
  | .top => m.top.map Json.integer
  | .skip => m.skip.map Json.integer
  | .count => m.count.map .boolean
  | .levels => m.levels.map Levels.toJson
  | .search => m.search.map Expr.toJson
  | .select => select.map selectJson
  | .compute => m.compute.map computeJson
  | .apply => m.apply.map applyJson
  | .expand => expand

theorem partFields_eq :
    partFields path m select expand =
      TermPart.sorted.filterMap fun part => part.field (partValue path m select expand part) := rfl

theorem lookup_partFields (part : TermPart) :
    (partFields path m select expand).lookup part.word = partValue path m select expand part := by
  rw [partFields_eq, TermPart.lookup_filterMap_field, if_pos part.mem_sorted]

theorem partField_partFields {α : Type} (part : TermPart) (read : String → Json → Reads α) :
    partField part (partFields path m select expand) read =
      (partValue path m select expand part).mapM (read part.word) := by
  rw [partField_eq, lookup_partFields]

theorem unknownPart?_partFields : unknownPart? (partFields path m select expand) = none := by
  rw [unknownPart?, List.find?_eq_none]
  intro key hkey
  obtain ⟨field, hfield, rfl⟩ := List.mem_map.mp hkey
  rw [partFields_eq] at hfield
  obtain ⟨part, -, hpart⟩ := List.mem_filterMap.mp hfield
  obtain ⟨v, -, rfl⟩ := Option.map_eq_some_iff.mp hpart
  have hword : part.word ∈ TermPart.words := List.mem_map_of_mem part.mem_all
  simpa using hword

end Term

namespace SelectItem

theorem rereads_select_iff {items : Select} :
    Rereads selectOfJson selectJson items ↔ ∀ item ∈ items, Rereads ofJson toJson item := by
  rw [← exists_mapM_iff, Rereads]
  simp only [selectJson, selectOfJson, toJsons_eq_map, ofItems_eq_mapM]

theorem exists_select_iff {select : Option Select} :
    (∃ select', (select.map selectJson).mapM selectOfJson = .ok select' ∧ select' == select) ↔
      ∀ items ∈ select, ∀ item ∈ items, Rereads ofJson toJson item :=
  exists_optionMapM_iff.trans (forall₂_congr fun _ _ => rereads_select_iff)

/-- A select item reads back when its path does and so do the items below it. -/
theorem rereads_iff_members {path : Path} {select : Option Select} :
    Rereads ofJson toJson ⟨path, select⟩ ↔
      path.Kept ∧ ∀ items ∈ select, ∀ item ∈ items, Rereads ofJson toJson item := by
  have hjson : ∃ fields, toJson ⟨path, select⟩ = .object fields ∧
      fields.lookup "path" = some path.toJson ∧
        fields.lookup "select" = select.map selectJson := by
    cases select <;> exact ⟨_, rfl, rfl, rfl⟩
  obtain ⟨fields, hfields, hpathField, hselectField⟩ := hjson
  rw [← exists_select_iff]
  simp only [Rereads, hfields, ofJson_object_eq_ok_iff, hpathField, hselectField,
    Option.some.injEq, exists_eq_left']
  constructor
  · intro h
    obtain ⟨⟨p, s⟩, ⟨hp, hs⟩, heq⟩ := h
    rw [mk_beq_mk, Bool.and_eq_true] at heq
    exact ⟨⟨p, hp, heq.1⟩, s, hs, heq.2⟩
  · intro h
    obtain ⟨⟨p, hp, hpeq⟩, s, hs, hseq⟩ := h
    exact ⟨⟨p, s⟩, ⟨hp, hs⟩, by rw [mk_beq_mk, hpeq, hseq]; rfl⟩

theorem rereads_iff {item : SelectItem} :
    Rereads ofJson toJson item ↔ ∀ p ∈ item.paths, p.Kept := by
  induction item using SelectItem.induction with
  | item path select ih =>
    rw [rereads_iff_members, forall_paths_iff]
    refine and_congr_right fun _ => forall₂_congr fun items hitems => ?_
    exact forall₂_congr fun item hitem => ih items hitems item hitem

end SelectItem

/-- The options of a term read back, whatever is written for its path and its nested clause. -/
theorem Modifiers.exists_reading {m : Modifiers} {select select' : Option Select}
    (h : ∀ token ∈ m.tokens select, token.NaNFree) (path : Path) (expand : Option Json)
    (hselect : (select.map selectJson).mapM SelectItem.selectOfJson = .ok select') :
    ∃ m' : Modifiers, TermOptions.ReadFrom (Term.partFields path m select expand)
      { m' with select := select' } ∧ m' == m := by
  obtain ⟨hfilter, horderBy, hsearch, -, hcompute, happly⟩ := Modifiers.forall_tokens_iff.mp h
  obtain ⟨filter', hf, hfeq⟩ :=
    exists_optionMapM_iff.mpr fun e he => Expr.rereads (hfilter e he)
  obtain ⟨orderBy', ho, hoeq⟩ := exists_optionMapM_iff.mpr fun items hitems =>
    list_rereads TermPart.orderBy.word fun item hitem =>
      OrderItem.rereads (Expr.rereads (horderBy items hitems item hitem).2)
  obtain ⟨top', ht, hteq⟩ :=
    exists_optionMapM_iff.mpr fun n (_ : n ∈ m.top) => int64_rereads TermPart.top.word n
  obtain ⟨skip', hk, hkeq⟩ :=
    exists_optionMapM_iff.mpr fun n (_ : n ∈ m.skip) => int64_rereads TermPart.skip.word n
  obtain ⟨count', hn, hneq⟩ :=
    exists_optionMapM_iff.mpr fun b (_ : b ∈ m.count) => boolean_rereads TermPart.count.word b
  obtain ⟨levels', hl, hleq⟩ :=
    exists_optionMapM_iff.mpr fun levels (_ : levels ∈ m.levels) => levels.rereads
  obtain ⟨search', hs, hseq⟩ :=
    exists_optionMapM_iff.mpr fun e he => Expr.rereads (hsearch e he)
  obtain ⟨compute', hc, hceq⟩ := exists_optionMapM_iff.mpr fun items hitems =>
    list_rereads TermPart.compute.word fun c hc =>
      Computed.rereads (Expr.rereads ((hcompute items hitems).2 c hc).2)
  obtain ⟨apply', ha, haeq⟩ := exists_optionMapM_iff.mpr fun steps hsteps =>
    Expr.rereads_list fun e he => Expr.rereads (happly steps hsteps e he)
  refine ⟨⟨filter', orderBy', top', skip', count', levels', search', compute', apply'⟩, ?_, ?_⟩
  · exact {
      filter := (Term.partField_partFields ..).trans hf
      orderBy := (Term.partField_partFields ..).trans ho
      top := (Term.partField_partFields ..).trans ht
      skip := (Term.partField_partFields ..).trans hk
      count := (Term.partField_partFields ..).trans hn
      levels := (Term.partField_partFields ..).trans hl
      search := (Term.partField_partFields ..).trans hs
      select := (Term.partField_partFields ..).trans hselect
      compute := (Term.partField_partFields ..).trans hc
      apply := (Term.partField_partFields ..).trans ha
      expand := rfl }
  · show (filter' == m.filter && orderBy' == m.orderBy && top' == m.top && skip' == m.skip &&
      count' == m.count && levels' == m.levels && search' == m.search && compute' == m.compute &&
        apply' == m.apply) = true
    simp only [hfeq, hoeq, hteq, hkeq, hneq, hleq, hseq, hceq, haeq, Bool.and_self]

namespace Term

theorem toJson_eq (path : Path) (m : Modifiers) (select : Option Select) (expand : Option Clause) :
    toJson ⟨path, m, select, expand⟩ =
      .object (partFields path m select (expand.map clauseJson)) := by
  cases expand <;> rfl

theorem rereads_clause_iff {terms : Clause} :
    Rereads expandOfJson clauseJson terms ↔ ∀ t ∈ terms, Rereads ofJson toJson t := by
  rw [← exists_mapM_iff, Rereads]
  simp only [clauseJson, expandOfJson, toJsons_eq_map, ofItems_eq_mapM]

theorem exists_expand_iff {expand : Option Clause} :
    (∃ expand', (expand.map clauseJson).mapM expandOfJson = .ok expand' ∧ expand' == expand) ↔
      ∀ terms ∈ expand, ∀ t ∈ terms, Rereads ofJson toJson t :=
  exists_optionMapM_iff.trans (forall₂_congr fun _ _ => rereads_clause_iff)

/-- A term reads back when its path does and so do its select and its nested clause. -/
theorem rereads_iff_members {path : Path} {m : Modifiers} {select : Option Select}
    {expand : Option Clause} (h : ∀ token ∈ m.tokens select, token.NaNFree) :
    Rereads ofJson toJson ⟨path, m, select, expand⟩ ↔
      path.Kept ∧ (∀ items ∈ select, ∀ item ∈ items,
        Rereads SelectItem.ofJson SelectItem.toJson item) ∧
          ∀ terms ∈ expand, ∀ t ∈ terms, Rereads ofJson toJson t := by
  rw [← SelectItem.exists_select_iff, ← exists_expand_iff]
  simp only [Rereads, toJson_eq, ofJson_object_eq_ok_iff, termPath_eq_ok_iff,
    unknownPart?_partFields, lookup_partFields, partValue, Option.some.injEq, exists_eq_left',
    true_and]
  constructor
  · intro h'
    obtain ⟨⟨p, m', s, e⟩, ⟨hp, hoptions, he⟩, heq⟩ := h'
    simp only [mk_beq_mk, Bool.and_eq_true] at heq
    obtain ⟨⟨⟨hpeq, -⟩, hseq⟩, heeq⟩ := heq
    have hs := hoptions.select
    rw [partField_partFields] at hs
    exact ⟨⟨p, hp, hpeq⟩, ⟨s, hs, hseq⟩, e, he, heeq⟩
  · intro h'
    obtain ⟨⟨p, hp, hpeq⟩, ⟨s, hs, hseq⟩, e, he, heeq⟩ := h'
    obtain ⟨m', hoptions, hmeq⟩ := Modifiers.exists_reading h path (expand.map clauseJson) hs
    exact ⟨⟨p, m', s, e⟩, ⟨hp, hoptions, he⟩, by rw [mk_beq_mk, hpeq, hmeq, hseq, heeq]; rfl⟩

/-- A term without NaNs reads back exactly when each of its paths does. -/
theorem rereads_iff {t : Term} (h : ∀ token ∈ t.tokens, token.NaNFree) :
    Rereads ofJson toJson t ↔ ∀ p ∈ t.paths, p.Kept := by
  induction t using Term.induction with
  | term path m select expand ih =>
    obtain ⟨-, -, hm, hexpand⟩ := forall_tokens_iff.mp h
    rw [rereads_iff_members hm, forall_paths_iff]
    refine and_congr_right fun _ => and_congr ?_ ?_
    · exact forall₂_congr fun _ _ => forall₂_congr fun _ _ => SelectItem.rereads_iff
    · refine forall₂_congr fun terms hterms => forall₂_congr fun t ht => ?_
      exact ih terms hterms t ht ((hexpand terms hterms).2 t ht)

end Term

namespace Clause

theorem naNFree_iff {clause : Clause} :
    (∀ l ∈ clause.literals, l.isNaN = false) ↔ ∀ token ∈ treeTokens clause, token.NaNFree := by
  rw [literals, List.forall_mem_flatMap]
  rfl

theorem literals_of_mem_paths {clause : Clause} {p : Path} (hp : p ∈ clause.paths) {l : Literal}
    (hl : l ∈ p.literals) : l ∈ clause.literals := by
  obtain ⟨token, htoken, hp⟩ := List.mem_flatMap.mp hp
  rw [Token.mem_paths_iff.mp hp] at htoken
  exact List.mem_flatMap_of_mem htoken hl

theorem rereads_iff {clause : Clause} (h : ∀ l ∈ clause.literals, l.isNaN = false) :
    Rereads clauseOfJson clauseJson clause ↔ ∀ p ∈ clause.paths, p.Kept := by
  obtain ⟨-, hterms⟩ := forall_treeTokens_iff.mp (naNFree_iff.mp h)
  rw [forall_paths_iff]
  exact Term.rereads_clause_iff.trans (forall₂_congr fun t ht => Term.rereads_iff (hterms t ht))

/-- The trees that read back as they were: those whose paths show their kinds and keep their
identifiers apart. -/
theorem roundtrip_iff (clause : Clause) (h : ∀ l ∈ clause.literals, l.isNaN = false) :
    (∃ other, clauseOfJson (clauseJson clause) = .ok other ∧ (other == clause) = true) ↔
      ∀ p ∈ clause.paths, p.KindsShown ∧ p.Separable := by
  refine (rereads_iff h).trans (forall₂_congr fun p hp => Path.kept_iff fun l hl => ?_)
  exact h l (literals_of_mem_paths hp hl)

/-- An empty list of keys is enough to keep a slash inside its identifier. -/
def slashedOrders : Clause :=
  [⟨.step (.ofIdentifier "Orders") (.last ⟨"A/B", .model, some []⟩),
    { filter := some (.literal (.double (.ofPattern true Double.infinityPattern))) },
    some [⟨.last ⟨"$count", .system, none⟩, none⟩],
    some [⟨.last (.ofIdentifier "Items"), {}, none, none⟩]⟩]

theorem roundtrip_slashedOrders :
    (∀ l ∈ slashedOrders.literals, l.isNaN = false) ∧
      ∃ other, clauseOfJson (clauseJson slashedOrders) = .ok other ∧
        (other == slashedOrders) = true :=
  ⟨by decide, (roundtrip_iff slashedOrders (by decide)).mpr (by decide)⟩

/-- A tree that was read has kinds as its identifiers show them, however its paths were spelled.
Written and read again it is the same tree as long as its identifiers are kept apart. -/
theorem reread_iff_separable {v : Json} {clause : Clause} (hread : clauseOfJson v = .ok clause)
    (h : ∀ l ∈ clause.literals, l.isNaN = false) :
    (∃ other, clauseOfJson (clauseJson clause) = .ok other ∧ (other == clause) = true) ↔
      ∀ p ∈ clause.paths, p.Separable := by
  refine (rereads_iff h).trans (forall₂_congr fun p hp => ?_)
  rw [Path.kept_iff fun l hl => h l (literals_of_mem_paths hp hl)]
  exact and_iff_right (kindsShown_of_clauseOfJson hread p hp)

theorem reread_segmentArray :
    ∃ clause, clauseOfJson (.array [.object [
        ("path", .array [.string "Orders", .object [("keys", .array []), ("segment", .string "")]]),
        ("select", .array [.string "$count"])]]) = .ok clause ∧
      ∃ other, clauseOfJson (clauseJson clause) = .ok other ∧ (other == clause) = true :=
  ⟨[⟨.step (.ofIdentifier "Orders") (.last ⟨"", .model, some []⟩), {},
      some [⟨.last (.ofIdentifier "$count"), none⟩], none⟩], rfl,
    (reread_iff_separable (v := .array [.object [
      ("path", .array [.string "Orders", .object [("keys", .array []), ("segment", .string "")]]),
      ("select", .array [.string "$count"])]]) rfl (by decide)).mpr (by decide)⟩

/-- An array without keys may spell an empty identifier, which a string may not: what is written
for the tree is refused. -/
theorem reread_emptySegment_refused :
    clauseOfJson (.array [.object [("path", .array [.string "Orders", .string ""])]]) =
        .ok [⟨.step (.ofIdentifier "Orders") (.last (.ofIdentifier "")), {}, none, none⟩] ∧
      (∀ l ∈ literals [⟨.step (.ofIdentifier "Orders") (.last (.ofIdentifier "")), {}, none, none⟩],
        l.isNaN = false) ∧
      clauseOfJson (clauseJson
          [⟨.step (.ofIdentifier "Orders") (.last (.ofIdentifier "")), {}, none, none⟩]) =
        .error (.document (.emptySegment "Orders/")) :=
  ⟨rfl, by decide, rfl⟩

end Clause

end ExpandTree
