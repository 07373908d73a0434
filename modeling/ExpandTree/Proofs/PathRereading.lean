import ExpandTree.Proofs.Contents
import ExpandTree.Proofs.Numerals
import ExpandTree.Proofs.PathSpelling

/-!
Literals and paths that read back. A literal does unless it is a NaN. A path whose keys do is kept
exactly when a document tells its identifiers apart and each of them shows the kind of its segment.
-/
namespace ExpandTree

theorem Number.int64?_toInt (n : Int64) : (Number.integer n.toInt).int64? = some n := by
  rw [Number.int64?, if_pos ⟨n.minValue_le_toInt, n.toInt_le⟩, Int64.ofInt_toInt]

theorem stringField_of_lookup {key : String} {fields : Json.Fields} {s : String}
    (h : fields.lookup key = some (.string s)) : stringField key fields = .ok s := by
  simp [stringField, requiredField, h]

namespace Literal

theorem rereads {l : Literal} (h : l.isNaN = false) : Rereads ofJson toJson l := by
  cases l with
  | null => exact ⟨.null, rfl, rfl⟩
  | boolean b => exact ⟨.boolean b, rfl, by rw [beq_self]; rfl⟩
  | string s => exact ⟨.string s, rfl, by rw [beq_self]; rfl⟩
  | int64 n =>
    refine ⟨.int64 n, ?_, by rw [beq_self]; rfl⟩
    rw [toJson, Json.integer, ofJson, Number.int64?_toInt]
  | double d =>
    refine ⟨.double d, ?_, by rw [beq_self, h]; rfl⟩
    rw [toJson]
    split
    · rfl
    · rename_i hfinite
      have htext := Double.ofText_specialText (Bool.eq_false_iff.mpr hfinite)
      have hnan : d.isNaN = false := h
      rw [Double.reread, hnan] at htext
      simp [ofJson, ofFields, stringField_of_lookup, stringOf, htext]
  | decimal d =>
    refine ⟨.decimal d.reread, ?_, d.reread_beq⟩
    simp [toJson, ofJson, ofFields, stringField_of_lookup, stringOf, lookup_cons,
      Decimal.ofText_text]

end Literal

theorem KeyValue.rereads {key : KeyValue} (h : key.value.isNaN = false) :
    Rereads ofJson toJson key := by
  obtain ⟨name, value⟩ := key
  obtain ⟨value', hread, heq⟩ := Literal.rereads h
  refine ⟨⟨name, value'⟩, ?_, by exact Bool.and_eq_true_iff.mpr ⟨BEq.rfl (α := Option String), heq⟩⟩
  cases name with
  | none => simp [toJson, ofJson, lookup_cons, nameOf, hread]
  | some name => simp [toJson, ofJson, lookup_cons, nameOf, hread]

namespace Segment

theorem beq_iff {s t : Segment} :
    s == t ↔ s.identifier = t.identifier ∧ s.kind = t.kind ∧ s.keys == t.keys := by
  show (_ && _ && _) = true ↔ _
  simp only [Bool.and_eq_true, beq_iff_eq, and_assoc]

/-- A segment of a keyed path reads back unless its identifier shows another kind than it has. -/
theorem rereads_iff {s : Segment} (h : ∀ l ∈ s.literals, l.isNaN = false) :
    Rereads ofJson toJson s ↔ s.kind = kindOf s.identifier := by
  constructor
  · intro h'
    obtain ⟨s', hread, heq⟩ := h'
    obtain ⟨hidentifier, hkind, -⟩ := beq_iff.mp heq
    rw [← hkind, ← hidentifier]
    exact kind_of_ofJson hread
  · intro hkind
    obtain ⟨identifier, kind, keys⟩ := s
    cases keys with
    | none =>
      exact ⟨ofIdentifier identifier, rfl, beq_iff.mpr ⟨rfl, hkind.symm, rfl⟩⟩
    | some keys =>
      have hkeys : ∀ key ∈ keys, Rereads KeyValue.ofJson KeyValue.toJson key := by
        intro key hkey
        exact KeyValue.rereads (h key.value (List.mem_map_of_mem hkey))
      obtain ⟨keys', hread, heq⟩ := exists_mapM_iff.mpr hkeys
      refine ⟨⟨identifier, kindOf identifier, some keys'⟩, ?_, beq_iff.mpr ⟨rfl, hkind.symm, heq⟩⟩
      simp [toJson, ofJson, lookup_cons, stringField_of_lookup, keysOf, hread, ofIdentifier,
        Except.map]

/-- The segments that identifiers alone describe, against segments in general. -/
theorem map_ofIdentifier_beq_iff {identifiers : List String} {segments : List Segment} :
    identifiers.map ofIdentifier == segments ↔
      identifiers = segments.map identifier ∧
        ∀ s ∈ segments, s.kind = kindOf s.identifier ∧ s.keys = none := by
  induction segments generalizing identifiers with
  | nil => cases identifiers <;> simp
  | cons s rest ih =>
    cases identifiers with
    | nil => simp
    | cons i more =>
      have hkeys : (none == s.keys) = true ↔ s.keys = none := by
        cases s.keys <;> simp
      rw [List.map_cons, List.cons_beq_cons, Bool.and_eq_true, ih, beq_iff, List.map_cons,
        List.cons.injEq, List.forall_mem_cons]
      constructor
      · intro h
        obtain ⟨⟨rfl, hkind, hs⟩, rfl, hrest⟩ := h
        exact ⟨⟨rfl, rfl⟩, ⟨hkind.symm, hkeys.mp hs⟩, hrest⟩
      · intro h
        obtain ⟨⟨rfl, rfl⟩, ⟨hkind, hs⟩, hrest⟩ := h
        exact ⟨⟨rfl, hkind.symm, hkeys.mpr hs⟩, rfl, hrest⟩

end Segment

namespace Path

open Text

/-- What is written for a path reads back as an equal one. -/
def Kept (p : Path) : Prop := ∃ q, ofJson p.toJson = .ok (some q) ∧ q == p

theorem exists_segments_beq {p : Path} {segments : List Segment} (h : segments == p.segments) :
    ∃ q : Path, q.segments = segments ∧ q == p := by
  have hne : segments ≠ [] := by
    rintro rfl
    obtain ⟨s, rest, hs⟩ := List.exists_cons_of_ne_nil p.segments_ne_nil
    rw [hs] at h
    contradiction
  obtain ⟨q, rfl⟩ := exists_segments_eq.mpr hne
  exact ⟨q, rfl, h⟩

theorem kept_iff_of_keyed {p : Path} (hkeyed : p.isKeyed = true)
    (h : ∀ l ∈ p.literals, l.isNaN = false) : p.Kept ↔ p.KindsShown := by
  have hmembers : (∀ s ∈ p.segments, Rereads Segment.ofJson Segment.toJson s) ↔ p.KindsShown := by
    rw [kindsShown_iff]
    refine forall₂_congr fun s hs => Segment.rereads_iff fun l hl => ?_
    exact h l (List.mem_flatMap_of_mem hs hl)
  rw [Kept, toJson, if_pos hkeyed, ← hmembers, ← exists_mapM_iff]
  simp only [ofJson_array_eq_some_iff]
  constructor
  · intro h'
    obtain ⟨q, hread, heq⟩ := h'
    exact ⟨q.segments, hread, heq⟩
  · intro h'
    obtain ⟨segments, hread, heq⟩ := h'
    obtain ⟨q, rfl, hq⟩ := exists_segments_beq heq
    exact ⟨q, hread, hq⟩

theorem keys_eq_none_of_not_keyed {p : Path} (hkeyed : ¬p.isKeyed = true) :
    ∀ s ∈ p.segments, s.keys = none := by
  simpa [isKeyed] using hkeyed

theorem kept_iff_of_not_keyed {p : Path} (hkeyed : ¬p.isKeyed = true) :
    p.Kept ↔ p.KindsShown ∧
      ∀ identifier ∈ p.identifiers, identifier ≠ "" ∧ '/' ∉ identifier.toList := by
  have hkeys := keys_eq_none_of_not_keyed hkeyed
  rw [Kept, toJson, if_neg hkeyed, stringOf, kindsShown_iff]
  simp only [ofJson, ofString_eq_some_iff, String.toList_ofList]
  constructor
  · intro h
    obtain ⟨q, ⟨hnil, hq⟩, heq⟩ := h
    rw [beq_def, hq] at heq
    obtain ⟨hidentifiers, hkinds⟩ := Segment.map_ofIdentifier_beq_iff.mp heq
    refine ⟨fun s hs => (hkinds s hs).1, ?_⟩
    -- the identifiers of an equal path are pieces, and a piece is neither empty nor slashed
    intro identifier hmem
    rw [identifiers, ← hidentifiers] at hmem
    obtain ⟨piece, hpiece, rfl⟩ := List.mem_map.mp hmem
    rw [String.toList_ofList]
    refine ⟨?_, not_mem_of_mem_pieces hpiece⟩
    intro hempty
    rw [String.ofList_eq_empty_iff.mp hempty] at hpiece
    exact hnil hpiece
  · intro h
    obtain ⟨hkinds, hplain⟩ := h
    have hpieces := pieces_display fun identifier hmem => (hplain identifier hmem).2
    have hsame : p.identifiers.map Segment.ofIdentifier == p.segments :=
      Segment.map_ofIdentifier_beq_iff.mpr ⟨rfl, fun s hs => ⟨hkinds s hs, hkeys s hs⟩⟩
    obtain ⟨q, hq, heq⟩ := exists_segments_beq hsame
    rw [hpieces]
    refine ⟨q, ⟨?_, ?_⟩, heq⟩
    · intro hnil
      obtain ⟨identifier, hmem, hempty⟩ := List.mem_map.mp hnil
      exact (hplain identifier hmem).1 (String.toList_eq_nil_iff.mp hempty)
    · rw [hq]
      simp

/-- Which paths read back as they were. -/
theorem kept_iff {p : Path} (h : ∀ l ∈ p.literals, l.isNaN = false) :
    p.Kept ↔ p.KindsShown ∧ p.Separable := by
  by_cases hkeyed : p.isKeyed = true
  · rw [kept_iff_of_keyed hkeyed h, Separable]
    simp [hkeyed]
  · rw [kept_iff_of_not_keyed hkeyed, Separable]
    simp [hkeyed]

end Path

end ExpandTree
