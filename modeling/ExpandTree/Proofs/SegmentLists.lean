import ExpandTree.Proofs.Mirroring
import ExpandTree.Proofs.PathSpelling

/-!
Paths as lists of segments. What the operations on chains do is told by the lists: turning a chain
around reverses its list, two chains are the same path when their lists of identifiers agree, and a
chain that is built from identifiers has one segment for each of them.
-/
namespace ExpandTree

namespace Path

variable {p q : Path}

theorem count_reversed (p : Path) : p.reversed.count = p.count := by
  rw [count_eq_length, count_eq_length, segments_reversed, List.length_reverse]

/-- The far end of a chain that was turned around is where the chain began. -/
theorem final_reversed (p : Path) : p.reversed.final = p.head := by
  apply Option.some.inj
  rw [← final_eq_getLast, segments_reversed, List.getLast?_reverse, head_cons_segments]

theorem samePath_iff_pointwise :
    p.samePath q = true ↔ p.identifiers.length = q.identifiers.length ∧
      ∀ i : Nat, p.identifiers[i]? = q.identifiers[i]? := by
  rw [samePath_iff]
  constructor
  · intro h
    rw [h]
    exact ⟨rfl, fun _ => rfl⟩
  · rintro ⟨-, hpointwise⟩
    exact List.ext_getElem? hpointwise

theorem samePath_equivalence : Equivalence fun p q : Path => p.samePath q = true where
  refl p := (samePath_iff p p).mpr rfl
  symm {p q} h := (samePath_iff q p).mpr ((samePath_iff p q).mp h).symm
  trans {p q r} hpq hqr :=
    (samePath_iff p r).mpr (((samePath_iff p q).mp hpq).trans ((samePath_iff q r).mp hqr))

end Path

namespace Segment

/-- A dollar sign in front makes an identifier that of a system resource. -/
theorem kindOf_eq_system_iff (identifier : String) :
    kindOf identifier = .system ↔ "$".toList <+: identifier.toList := by
  unfold kindOf
  cases identifier.toList with
  | nil => simp
  | cons c rest => simp [List.cons_prefix_cons, eq_comm]

/-- An identifier alone tells all of the segment: its kind by the first character, and no keys. -/
def DescribedBy (s : Segment) (identifier : String) : Prop :=
  s.identifier = identifier ∧ (s.kind = .system ↔ "$".toList <+: identifier.toList) ∧
    s.keys = none

theorem ofIdentifier_describedBy (identifier : String) :
    (ofIdentifier identifier).DescribedBy identifier :=
  ⟨rfl, kindOf_eq_system_iff identifier, rfl⟩

end Segment

namespace Path

/-- Identifiers make a chain if there are any, with one segment for each of them, in order. -/
theorem exists_ofIdentifiers (first : String) (rest : List String) :
    ∃ p, ofIdentifiers? (first :: rest) = some p ∧
      List.Forall₂ Segment.DescribedBy p.segments (first :: rest) := by
  obtain ⟨p, hp⟩ := exists_segments_eq.mpr
    (List.cons_ne_nil (Segment.ofIdentifier first) (rest.map Segment.ofIdentifier))
  refine ⟨p, ofSegments?_eq_some_iff.mpr hp, ?_⟩
  rw [hp, ← List.map_cons, List.forall₂_map_left_iff, List.forall₂_same]
  exact fun identifier _ => Segment.ofIdentifier_describedBy identifier

/-- Chains do what their lists of segments do. Their size and their far end are those of the list;
turning a chain around reverses it; whether two are the same path is read off their identifiers;
and any identifiers but none at all make a chain. -/
theorem chain_operations (p q : Path) (first : String) (rest : List String) :
    (p.count = p.segments.length ∧ p.segments.getLast? = some p.final) ∧
    (p.reversed.segments = p.segments.reverse ∧ p.reversed.reversed = p ∧
      p.reversed.count = p.count ∧ p.reversed.final = p.head) ∧
    (p.samePath q = true ↔ p.identifiers.length = q.identifiers.length ∧
      ∀ i : Nat, p.identifiers[i]? = q.identifiers[i]?) ∧
    (Equivalence fun p q : Path => p.samePath q = true) ∧
    p.reversed.samePath q.reversed = p.samePath q ∧
    ∃ r, ofIdentifiers? (first :: rest) = some r ∧
      List.Forall₂ Segment.DescribedBy r.segments (first :: rest) :=
  ⟨⟨p.count_eq_length, p.final_eq_getLast⟩,
    ⟨p.segments_reversed, p.reversed_reversed, p.count_reversed, p.final_reversed⟩,
    samePath_iff_pointwise, samePath_equivalence, samePath_reversed p q,
    exists_ofIdentifiers first rest⟩

end Path

end ExpandTree
