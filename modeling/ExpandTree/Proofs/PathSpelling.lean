import ExpandTree.Document
import ExpandTree.Document.PathReader
import ExpandTree.Proofs.Reads

/-!
How documents spell paths. The identifiers between slashes are recovered from a string exactly when
there are some and none of them holds a slash, and a string with an empty piece is refused. An
array gives each identifier a place of its own, so nothing is asked of the identifiers there.
-/
namespace ExpandTree

open Text

namespace Segment

theorem kind_eq_kindOf_iff (s : Segment) :
    s.kind = kindOf s.identifier ↔
      (s.kind = .system ↔ s.identifier.toList.head? = some '$') := by
  unfold kindOf
  split
  · simp [*]
  · cases hkind : s.kind <;> simp [*]

theorem kind_of_ofJson {v : Json} {s : Segment} (h : ofJson v = .ok s) :
    s.kind = kindOf s.identifier := by
  cases v with
  | string identifier =>
    cases h
    rfl
  | object fields =>
    obtain ⟨identifier, -, h⟩ := bind_eq_ok_iff.mp h
    obtain ⟨keys, -, h⟩ := bind_eq_ok_iff.mp h
    cases h
    rfl
  | null | boolean | number | array => cases h

end Segment

namespace Path

theorem pieces_of_not_mem {text : List Char} (h : '/' ∉ text) : pieces text = [text] := by
  induction text with
  | nil => rfl
  | cons c rest ih =>
    obtain ⟨hc, hrest⟩ := not_or.mp (List.mem_cons.not.mp h)
    rw [pieces, if_neg (Ne.symm hc), ih hrest]

theorem pieces_append {text : List Char} (h : '/' ∉ text) (rest : List Char) :
    pieces (text ++ '/' :: rest) = text :: pieces rest := by
  induction text with
  | nil => rfl
  | cons c more ih =>
    obtain ⟨hc, hmore⟩ := not_or.mp (List.mem_cons.not.mp h)
    rw [List.cons_append, pieces, if_neg (Ne.symm hc), ih hmore]

theorem pieces_join {texts : List (List Char)} (hne : texts ≠ [])
    (h : ∀ text ∈ texts, '/' ∉ text) : pieces (join ['/'] texts) = texts := by
  induction texts with
  | nil => exact absurd rfl hne
  | cons text rest ih =>
    obtain ⟨htext, hrest⟩ := List.forall_mem_cons.mp h
    cases rest with
    | nil => exact pieces_of_not_mem htext
    | cons next more =>
      rw [join, List.append_assoc, List.singleton_append, pieces_append htext,
        ih (List.cons_ne_nil next more) hrest]

/-- What stands between the slashes of a path without slashes in its identifiers. -/
theorem pieces_display {p : Path} (h : ∀ identifier ∈ p.identifiers, '/' ∉ identifier.toList) :
    pieces p.display = p.identifiers.map String.toList := by
  apply pieces_join
  · simpa [identifiers] using p.segments_ne_nil
  · intro text htext
    obtain ⟨identifier, hmem, rfl⟩ := List.mem_map.mp htext
    exact h identifier hmem

/-- The pieces of a path are those of the text split at its slashes. -/
theorem pieces_eq_splitOn (text : List Char) : pieces text = text.splitOn '/' := by
  induction text with
  | nil => rfl
  | cons c rest ih =>
    rw [List.splitOn, List.splitOnP_cons_eq_if_modifyHead, ← List.splitOn, ← ih, pieces]
    by_cases hc : c = '/'
    · simp [hc]
    · simp only [hc, if_false, beq_iff_eq]
      cases hpieces : pieces rest with
      | nil => exact absurd (ih.symm.trans hpieces) (List.splitOn_ne_nil '/' rest)
      | cons piece more => rfl

theorem not_mem_of_mem_pieces {text piece : List Char} (h : piece ∈ pieces text) :
    '/' ∉ piece := by
  induction text generalizing piece with
  | nil =>
    rw [List.mem_singleton.mp h]
    exact List.not_mem_nil
  | cons c rest ih =>
    unfold pieces at h
    split at h
    · rcases List.mem_cons.mp h with h | h
      · rw [h]
        exact List.not_mem_nil
      · exact ih h
    · rename_i hc
      split at h
      · rename_i first more heq
        rw [heq] at ih
        rcases List.mem_cons.mp h with h | h
        · rw [h]
          exact List.not_mem_cons_of_ne_of_not_mem (Ne.symm hc) (ih List.mem_cons_self)
        · exact ih (List.mem_cons_of_mem first h)
      · rw [List.mem_singleton.mp h]
        simpa using Ne.symm hc

theorem ofSegments?_eq_some_iff {segments : List Segment} {p : Path} :
    ofSegments? segments = some p ↔ p.segments = segments := by
  constructor
  · exact segments_of_ofSegments?
  · intro h
    rw [← h, ofSegments?_segments]

theorem exists_segments_eq {segments : List Segment} :
    (∃ p : Path, p.segments = segments) ↔ segments ≠ [] := by
  constructor
  · intro h
    obtain ⟨p, rfl⟩ := h
    exact p.segments_ne_nil
  · intro h
    induction segments with
    | nil => exact absurd rfl h
    | cons s rest ih =>
      cases rest with
      | nil => exact ⟨.last s, rfl⟩
      | cons t more =>
        obtain ⟨p, hp⟩ := ih (List.cons_ne_nil t more)
        exact ⟨.step s p, congrArg (List.cons s) hp⟩

/-- Strings that spell a path, and the path they spell. -/
theorem ofString_eq_some_iff {s : String} {p : Path} :
    ofString s = .ok (some p) ↔
      [] ∉ pieces s.toList ∧
        p.segments = ((pieces s.toList).map String.ofList).map Segment.ofIdentifier := by
  have hany : (pieces s.toList).any List.isEmpty = true ↔ [] ∈ pieces s.toList := by
    simp
  by_cases hs : s = ""
  · subst hs
    simp [ofString, pieces]
  · by_cases hempty : [] ∈ pieces s.toList
    · simp [ofString, hs, hany, hempty]
    · simp [ofString, hs, hany, hempty, ofIdentifiers?, ofSegments?_eq_some_iff]

theorem ofJson_array_eq_some_iff {items : List Json} {p : Path} :
    ofJson (.array items) = .ok (some p) ↔ items.mapM Segment.ofJson = .ok p.segments := by
  simp only [ofJson, map_eq_ok_iff, ofSegments?_eq_some_iff, exists_eq_right']

/-- Every segment has the kind that its identifier shows. -/
def KindsShown (p : Path) : Prop :=
  ∀ s ∈ p.segments, s.kind = .system ↔ s.identifier.toList.head? = some '$'

/-- A document tells the identifiers apart: keys make the path an array, and without keys no
identifier is empty or holds a slash. -/
def Separable (p : Path) : Prop :=
  p.isKeyed = true ∨ ∀ identifier ∈ p.identifiers, identifier ≠ "" ∧ '/' ∉ identifier.toList

instance : DecidablePred KindsShown := fun p =>
  inferInstanceAs (Decidable (∀ s ∈ p.segments,
    s.kind = .system ↔ s.identifier.toList.head? = some '$'))

instance : DecidablePred Separable := fun p =>
  inferInstanceAs (Decidable (p.isKeyed = true ∨
    ∀ identifier ∈ p.identifiers, identifier ≠ "" ∧ '/' ∉ identifier.toList))

theorem kindsShown_iff {p : Path} :
    p.KindsShown ↔ ∀ s ∈ p.segments, s.kind = Segment.kindOf s.identifier :=
  forall₂_congr fun s _ => s.kind_eq_kindOf_iff.symm

/-- Whatever its spelling, a path that was read shows its kinds. -/
theorem kindsShown_of_ofJson {v : Json} {p : Path} (h : ofJson v = .ok (some p)) :
    p.KindsShown := by
  rw [kindsShown_iff]
  cases v with
  | string text =>
    rw [(ofString_eq_some_iff.mp h).2]
    simp [Segment.ofIdentifier]
  | array items =>
    intro s hs
    obtain ⟨v, hv⟩ := exists_of_mem_of_mapM (ofJson_array_eq_some_iff.mp h) hs
    exact Segment.kind_of_ofJson hv
  | null | boolean | number | object => cases h

end Path

end ExpandTree
