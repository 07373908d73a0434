import ExpandTree.Proofs.SealedText
import Mathlib.Data.List.Forall2

/-!
Query text can be cut apart again. The options of a term are sealed against semicolons and the
terms of a clause against commas, so a scan finds the terms between the commas of a clause, and the
options between the semicolons of the last parentheses of a term.
-/
namespace ExpandTree

open Text

namespace Term

/-- Whether an option is present. The path is none. -/
def hasOption (t : Term) : TermPart → Bool
  | .path => false
  | .filter => t.modifiers.filter.isSome
  | .orderBy => t.modifiers.orderBy.isSome
  | .top => t.modifiers.top.isSome
  | .skip => t.modifiers.skip.isSome
  | .count => t.modifiers.count.isSome
  | .levels => t.modifiers.levels.isSome
  | .search => t.modifiers.search.isSome
  | .select => t.select.isSome
  | .compute => t.modifiers.compute.isSome
  | .apply => t.modifiers.apply.isSome
  | .expand => t.expand.isSome

/-- The present options, in the order in which they are written. -/
def presentOptions (t : Term) : List TermPart := TermPart.all.filter t.hasOption

/-- What is written behind the name of an option. -/
def optionValue (style : Style) (t : Term) : TermPart → Option (List Char)
  | .path => none
  | .filter => t.modifiers.filter.map (Expr.text .plain)
  | .orderBy => t.modifiers.orderBy.map (orderByText style)
  | .top => t.modifiers.top.map int64Text
  | .skip => t.modifiers.skip.map int64Text
  | .count => t.modifiers.count.map boolText
  | .levels => t.modifiers.levels.map Levels.text
  | .search => t.modifiers.search.map (Expr.text .search)
  | .select => t.select.map selectText
  | .compute => t.modifiers.compute.map computeText
  | .apply => t.modifiers.apply.map applyText
  | .expand => t.expand.map (clauseText style)

/-- The name and the value of an option, if it is present. -/
def optionText (style : Style) (t : Term) (part : TermPart) : Option (List Char) :=
  part.optionText (t.optionValue style part)

def optionTexts (style : Style) (t : Term) : List (List Char) :=
  TermPart.all.filterMap (t.optionText style)

variable {style : Style} {t : Term}

theorem isSome_optionValue (style : Style) (t : Term) (part : TermPart) :
    (t.optionValue style part).isSome = t.hasOption part := by
  cases part <;> simp only [optionValue, hasOption, Option.isSome_map, Option.isSome_none]

theorem isBare_iff : t.isBare = true ↔ t.presentOptions = [] := by
  simp only [presentOptions, List.filter_eq_nil_iff, TermPart.all, List.forall_mem_cons, hasOption,
    isBare, Modifiers.isEmpty, Bool.and_eq_true, Bool.not_eq_true, Option.isSome_eq_false_iff]
  tauto

theorem text_eq_withOptions (t : Term) :
    t.text style = withOptions t.path (t.optionTexts style) := by
  obtain ⟨path, m, select, expand⟩ := t
  have hmodifiers : m.optionTexts style select =
      TermPart.all.dropLast.filterMap (optionText style ⟨path, m, select, expand⟩) := by
    change (TermPart.all.dropLast.map (optionText style ⟨path, m, select, expand⟩)).filterMap id = _
    rw [List.filterMap_map, Function.id_comp]
  have hexpand : ((expand.map (clauseText style)).map (assigned .expand)).toList =
      [TermPart.expand].filterMap (optionText style ⟨path, m, select, expand⟩) := by
    cases expand <;> rfl
  rw [text_eq, hmodifiers, hexpand, ← List.filterMap_append]
  rfl

/-- One text for each present option: its name, and behind it its value. -/
theorem optionTexts_eq_map (style : Style) (t : Term) :
    t.optionTexts style =
      t.presentOptions.map fun part => assigned part ((t.optionValue style part).getD []) := by
  unfold presentOptions optionTexts
  induction TermPart.all with
  | nil => rfl
  | cons part rest ih =>
    have hsome := isSome_optionValue style t part
    rw [List.filterMap_cons, List.filter_cons, ← hsome, optionText]
    cases hvalue : t.optionValue style part with
    | none => exact ih
    | some value =>
      rw [Option.isSome_some, if_pos rfl, List.map_cons, hvalue, ← ih]
      rfl

/-- Each piece of a text is the name and the value of an option that is present. -/
theorem forall₂_optionValues (style : Style) (t : Term) :
    List.Forall₂ (fun part written =>
        ∃ value ∈ t.optionValue style part, written = assigned part value)
      t.presentOptions (t.optionTexts style) := by
  rw [optionTexts_eq_map, List.forall₂_map_right_iff, List.forall₂_same]
  intro part hpart
  have hpresent : (t.optionValue style part).isSome = true := by
    rw [isSome_optionValue]
    exact (List.mem_filter.mp hpart).2
  obtain ⟨value, hvalue⟩ := Option.isSome_iff_exists.mp hpresent
  exact ⟨value, hvalue, by rw [hvalue, Option.getD_some]⟩

theorem forall₂_optionTexts (style : Style) (t : Term) :
    List.Forall₂ (fun part written => assigned part [] <+: written) t.presentOptions
      (t.optionTexts style) := by
  refine (forall₂_optionValues style t).imp ?_
  rintro part written ⟨value, -, rfl⟩
  exact ⟨value, by simp [assigned]⟩

end Term

section Options

variable {options : List (List Char)}

theorem sealed_options (h : ∀ option ∈ options, Sealed [';'] option) :
    Sealed [] (join [';'] options) :=
  sealed_join (sealed_singleton (by decide) List.not_mem_nil) fun option hoption =>
    (h option hoption).mono (List.nil_subset _)

theorem sealed_withOptions {path : Path}
    (hpath : (Token.path path).Scannable) (h : ∀ option ∈ options, Sealed [';'] option) :
    Sealed listSeparators (withOptions path options) := by
  cases options with
  | nil => exact Path.sealed hpath
  | cons option rest => exact (Path.sealed hpath).append (sealed_parentheses (sealed_options h))

end Options

namespace Term

variable {style : Style}

section Values

variable {path : Path} {m : Modifiers} {select : Option Select} {expand : Option Clause}

/-- The value of an option shows no semicolon, if the terms of a nested clause show none. -/
theorem sealed_optionValue (hm : ∀ token ∈ m.tokens select, token.Scannable)
    (hexpand : ∀ terms ∈ expand, ∀ u ∈ terms, Sealed listSeparators (text style u))
    (part : TermPart) :
    ∀ value ∈ optionValue style ⟨path, m, select, expand⟩ part, Sealed [';'] value := by
  obtain ⟨hfilter, horderBy, hsearch, hselect, hcompute, happly⟩ :=
    Modifiers.forall_tokens_iff.mp hm
  have hplain : ∀ written, Plain written → Sealed [';'] written := fun _ h =>
    h.sealed.mono (by decide)
  cases part with
  | path => exact nofun
  | filter =>
    exact Option.forall_mem_map.mpr fun e he => (e.sealed .plain (hfilter e he)).mono (by decide)
  | orderBy =>
    refine Option.forall_mem_map.mpr fun items hitems => sealed_list ?_
    exact List.forall_mem_map.mpr fun item hitem =>
      OrderItem.sealed style (horderBy items hitems item hitem).2
  | top => exact Option.forall_mem_map.mpr fun n _ => hplain _ (plain_int64Text n)
  | skip => exact Option.forall_mem_map.mpr fun n _ => hplain _ (plain_int64Text n)
  | count =>
    exact Option.forall_mem_map.mpr fun b _ => hplain _ (by cases b <;> decide)
  | levels =>
    refine Option.forall_mem_map.mpr fun levels _ => hplain _ ?_
    cases levels with
    | depth n => exact plain_int64Text n
    | max => decide
  | search =>
    exact Option.forall_mem_map.mpr fun e he => (e.sealed .search (hsearch e he)).mono (by decide)
  | select =>
    refine Option.forall_mem_map.mpr fun items hitems => sealed_list ?_
    rw [SelectItem.texts_eq_map]
    exact List.forall_mem_map.mpr fun item hitem =>
      item.sealed ((hselect items hitems).2 item hitem)
  | compute =>
    refine Option.forall_mem_map.mpr fun items hitems => sealed_list ?_
    exact List.forall_mem_map.mpr fun c hc =>
      Computed.sealed ((hcompute items hitems).2 c hc).1 ((hcompute items hitems).2 c hc).2
  | apply =>
    refine Option.forall_mem_map.mpr fun steps hsteps => sealed_join (hplain _ (by decide)) ?_
    rw [Expr.texts_eq_map]
    exact List.forall_mem_map.mpr fun e he =>
      (e.sealed .plain (happly steps hsteps e he)).mono (by decide)
  | expand =>
    refine Option.forall_mem_map.mpr fun terms hterms => sealed_list ?_
    rw [texts_eq_map]
    exact List.forall_mem_map.mpr (hexpand terms hterms)

theorem sealed_optionTexts (hm : ∀ token ∈ m.tokens select, token.Scannable)
    (hexpand : ∀ terms ∈ expand, ∀ u ∈ terms, Sealed listSeparators (text style u)) :
    ∀ option ∈ optionTexts style ⟨path, m, select, expand⟩, Sealed [';'] option := by
  intro option hoption
  obtain ⟨part, -, hpart⟩ := List.mem_filterMap.mp hoption
  obtain ⟨value, hvalue, rfl⟩ := Option.map_eq_some_iff.mp hpart
  exact sealed_assigned part (sealed_optionValue hm hexpand part value hvalue)

end Values

theorem sealed (t : Term) (h : ∀ token ∈ t.tokens, token.Scannable) :
    Sealed listSeparators (t.text style) := by
  induction t using Term.induction with
  | term path m select expand ih =>
    obtain ⟨-, hpath, hm, hexpand⟩ := forall_tokens_iff.mp h
    rw [text_eq_withOptions]
    refine sealed_withOptions hpath (sealed_optionTexts hm fun terms hterms u hu => ?_)
    exact ih terms hterms u hu ((hexpand terms hterms).2 u hu)

/-- The last parentheses of a term hold its options, with semicolons between them. -/
theorem cut_lastGroup (style : Style) {t : Term} (h : ∀ token ∈ t.tokens, token.Scannable)
    (hbare : t.isBare = false) :
    ∃ body, (groups (t.text style)).getLast? = some body ∧ cut ';' body = t.optionTexts style := by
  have hpresent : t.presentOptions ≠ [] := fun hnil => by
    rw [isBare_iff.mpr hnil] at hbare
    cases hbare
  have hparts := forall₂_optionTexts style t
  obtain ⟨path, m, select, expand⟩ := t
  obtain ⟨-, hpath, hm, hexpand⟩ := forall_tokens_iff.mp h
  have hoptions : ∀ option ∈ optionTexts style ⟨path, m, select, expand⟩, Sealed [';'] option :=
    sealed_optionTexts hm fun terms hterms u hu => u.sealed ((hexpand terms hterms).2 u hu)
  rw [text_eq_withOptions]
  cases htexts : optionTexts style ⟨path, m, select, expand⟩ with
  | nil =>
    rw [htexts, List.forall₂_nil_right_iff] at hparts
    exact absurd hparts hpresent
  | cons option rest =>
    rw [htexts] at hoptions
    exact ⟨_, getLast?_groups (Path.sealed hpath) (sealed_options hoptions),
      cut_join List.mem_cons_self hoptions⟩

end Term

namespace Clause

/-- A key and a filter with separators in their strings, and options at two depths. -/
def quotedOrder : Term :=
  ⟨.last ⟨"Orders", .model, some [⟨none, .int64 1⟩, ⟨some "Kind", .string "a,(;'"⟩]⟩,
    { filter := some (.binary .equal (.property "Name") (.literal (.string "it's;)"))),
      top := some 5 },
    none,
    some [⟨.last ⟨"Lines", .model, none⟩, { orderBy := some [⟨.property "Id", .descending⟩] },
      some [⟨.last ⟨"Id", .model, none⟩, none⟩], none⟩]⟩

def bareItems : Term := ⟨.last ⟨"Items", .model, none⟩, {}, none, none⟩

end Clause

end ExpandTree
