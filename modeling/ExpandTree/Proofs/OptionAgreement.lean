import ExpandTree.Building
import ExpandTree.Proofs.OptionLists
import ExpandTree.Proofs.Roundtrip
import Mathlib.Data.List.Perm.Basic

/-!
The options of a term, as its document and its text show them. The document has a key for the path
and one for each present option, all of them known to the reader; the text has a piece for each
present option. So a term is bare exactly when its text is that of its path, and exactly when its
document has no key but the path's.
-/
namespace ExpandTree

open Text
open Json (Fields)

namespace TermPart

theorem sorted_perm_all : sorted.Perm all := by decide

/-- The parts of which something is written are told apart by their words. -/
theorem keys_filterMap_field (parts : List TermPart) (value : TermPart → Option Json) :
    (parts.filterMap fun part => part.field (value part)).map Prod.fst =
      (parts.filter fun part => (value part).isSome).map word := by
  induction parts with
  | nil => rfl
  | cons part rest ih =>
    rw [List.filterMap_cons, List.filter_cons]
    cases value part with
    | none => exact ih
    | some v => exact congrArg (List.cons part.word) ih

end TermPart

namespace Term

variable {style : Style} {t : Term} {path : Path} {options : List (List Char)}

theorem build_options (t : Term) : build (some t.path) t.options = .ok t := by
  obtain ⟨path, m, select, expand⟩ := t
  rfl

theorem isSome_partValue (path : Path) (m : Modifiers) (select : Option Select)
    (expand : Option Clause) (part : TermPart) :
    (partValue path m select (expand.map clauseJson) part).isSome =
      (part == .path || hasOption ⟨path, m, select, expand⟩ part) := by
  cases part <;> simp [partValue, hasOption]

/-- Of the parts that a document shows, the path comes first in the order of the text. -/
theorem filter_shown (t : Term) :
    TermPart.all.filter (fun part => part == .path || t.hasOption part) =
      .path :: t.presentOptions := by
  have hrest : ∀ part ∈ TermPart.all.tail, (part == TermPart.path || t.hasOption part) =
      t.hasOption part := by
    intro part hpart
    have hne : part ≠ .path := by
      rintro rfl
      exact absurd hpart (by decide)
    rw [beq_false_of_ne hne, Bool.false_or]
  exact congrArg (List.cons TermPart.path) (List.filter_congr hrest)

/-- A document has the key of the path and those of the present options. -/
theorem exists_fields (t : Term) :
    ∃ fields : Fields, t.toJson = .object fields ∧ unknownPart? fields = none ∧
      (fields.map Prod.fst).Perm ((TermPart.path :: t.presentOptions).map TermPart.word) := by
  obtain ⟨path, m, select, expand⟩ := t
  refine ⟨_, toJson_eq path m select expand, unknownPart?_partFields .., ?_⟩
  rw [partFields_eq, TermPart.keys_filterMap_field]
  simp only [isSome_partValue]
  rw [← filter_shown]
  exact (TermPart.sorted_perm_all.filter _).map _

theorem nodup_shown_words (t : Term) :
    ((TermPart.path :: t.presentOptions).map TermPart.word).Nodup := by
  have hall : TermPart.all.Nodup := by decide
  rw [← filter_shown]
  exact (hall.filter _).map fun _ _ => TermPart.word_injective

theorem ne_path_of_mem_presentOptions {part : TermPart} (h : part ∈ t.presentOptions) :
    part.word ≠ TermPart.path.word := by
  intro hword
  rw [TermPart.word_injective hword, presentOptions] at h
  exact absurd (List.mem_filter.mp h).2 Bool.false_ne_true

/-- As many keys stand beside the path as options are present. -/
theorem countP_shown_words (t : Term) :
    ((TermPart.path :: t.presentOptions).map TermPart.word).countP (· ≠ TermPart.path.word) =
      t.presentOptions.length := by
  have hoptions : ∀ key ∈ t.presentOptions.map TermPart.word,
      decide (key ≠ TermPart.path.word) = true :=
    List.forall_mem_map.mpr fun part hpart =>
      decide_eq_true (ne_path_of_mem_presentOptions hpart)
  rw [List.map_cons, List.countP_cons_of_neg (by simp), List.countP_eq_length.mpr hoptions,
    List.length_map]

/-- A text with options in it is longer than that of its path. -/
theorem withOptions_eq_path_iff : withOptions path options = path.text ↔ options = [] := by
  constructor
  · intro h
    cases options with
    | nil => rfl
    | cons option rest =>
      have hlength := congrArg List.length h
      simp [withOptions, parenthesized] at hlength
  · rintro rfl
    rfl

theorem withOptions_eq (path : Path) (options : List (List Char)) :
    withOptions path options =
      if options = [] then path.text
      else path.text ++ '(' :: join [';'] options ++ [')'] := by
  cases options with
  | nil => rfl
  | cons option rest => simp [withOptions, parenthesized]

theorem isBare_iff_text : t.isBare = true ↔ t.text style = t.path.text := by
  rw [text_eq_withOptions, withOptions_eq_path_iff, isBare_iff, optionTexts_eq_map,
    List.map_eq_nil_iff]

-- A list counts as present when it is empty.
example : text {} ⟨.last ⟨"Orders", .model, none⟩, { orderBy := some [] }, some [], none⟩ =
    "Orders($orderby=;$select=)".toList := by decide

theorem isBare_iff_keys {keys : List String}
    (h : keys.Perm ((TermPart.path :: t.presentOptions).map TermPart.word)) :
    t.isBare = true ↔ ∀ key ∈ keys, key = TermPart.path.word := by
  simp only [h.mem_iff, isBare_iff, List.map_cons, List.forall_mem_cons, true_and]
  constructor
  · intro hnone
    rw [hnone]
    exact fun _ hmem => absurd hmem List.not_mem_nil
  · intro hkeys
    rw [List.eq_nil_iff_forall_not_mem]
    intro part hpart
    exact ne_path_of_mem_presentOptions hpart (hkeys _ (List.mem_map_of_mem hpart))

/-- A term shows the same options wherever they are enumerated: where it is built, in its document,
in its text, and where it is asked whether it is bare. -/
theorem enumerations_agree (style : Style) (t : Term) :
    build (some t.path) t.options = .ok t ∧
    ∃ (fields : Fields) (options : List (List Char)),
      t.toJson = .object fields ∧
      unknownPart? fields = none ∧
      (fields.map Prod.fst).Nodup ∧
      (fields.map Prod.fst).Perm ((TermPart.path :: t.presentOptions).map TermPart.word) ∧
      t.text style = (if options = [] then t.path.text
        else t.path.text ++ '(' :: join [';'] options ++ [')']) ∧
      List.Forall₂ (fun part written =>
          ∃ value ∈ t.optionValue style part, written = assigned part value)
        t.presentOptions options ∧
      options.length = (fields.map Prod.fst).countP (· ≠ "path") ∧
      (t.isBare = true ↔ t.text style = t.path.text) ∧
      (t.isBare = true ↔ ∀ key ∈ fields.map Prod.fst, key = "path") := by
  obtain ⟨fields, hjson, hknown, hkeys⟩ := t.exists_fields
  have hvalues := forall₂_optionValues style t
  have htext : t.text style = _ := (text_eq_withOptions t).trans (withOptions_eq t.path _)
  have hcount : (t.optionTexts style).length =
      (fields.map Prod.fst).countP (· ≠ TermPart.path.word) := by
    rw [hkeys.countP_eq, countP_shown_words, hvalues.length_eq]
  exact ⟨t.build_options, fields, t.optionTexts style, hjson, hknown,
    hkeys.nodup_iff.mpr t.nodup_shown_words, hkeys, htext, hvalues, hcount, isBare_iff_text,
    isBare_iff_keys hkeys⟩

end Term

end ExpandTree
