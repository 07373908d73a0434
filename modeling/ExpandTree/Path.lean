import ExpandTree.Literal
import ExpandTree.Text

/-!
Paths: chains of at least one segment, read from the head. A segment has an identifier, a kind and
perhaps key values; a present list of keys may be empty. A chain built from its far end reads
backwards until it is reversed.
-/
namespace ExpandTree

open Text

/-- Whether a segment names part of the model or a system resource such as `$count`. -/
inductive SegmentKind where
  | model
  | system
  deriving DecidableEq

/-- A key value; without a name its position counts. -/
structure KeyValue where
  name : Option String
  value : Literal

instance : BEq KeyValue := ⟨fun a b => a.name == b.name && a.value == b.value⟩

structure Segment where
  identifier : String
  kind : SegmentKind
  keys : Option (List KeyValue)

namespace Segment

instance : BEq Segment :=
  ⟨fun a b => a.identifier == b.identifier && a.kind == b.kind && a.keys == b.keys⟩

/-- Identifiers of system resources start with a dollar sign. -/
def kindOf (identifier : String) : SegmentKind :=
  if identifier.toList.head? = some '$' then .system else .model

/-- The segment that an identifier alone describes. -/
def ofIdentifier (identifier : String) : Segment := ⟨identifier, kindOf identifier, none⟩

def isSystem (s : Segment) : Bool := s.kind == .system

/-- Names qualified by a namespace or container hold a dot. -/
def isQualified (s : Segment) : Bool := s.identifier.toList.contains '.'

end Segment

inductive Path where
  | last (segment : Segment)
  | step (segment : Segment) (next : Path)

namespace Path

def segments : Path → List Segment
  | .last s => [s]
  | .step s next => s :: next.segments

instance : BEq Path := ⟨fun p q => p.segments == q.segments⟩

theorem beq_def (p q : Path) : (p == q) = (p.segments == q.segments) := rfl

def head : Path → Segment
  | .last s => s
  | .step s _ => s

def next? : Path → Option Path
  | .last _ => none
  | .step _ next => some next

/-- The segment at the far end. -/
def final : Path → Segment
  | .last s => s
  | .step _ next => next.final

def withHead (s : Segment) : Path → Path
  | .last _ => .last s
  | .step _ next => .step s next

/-- The chain that reads as the list does. -/
def ofSegments? : List Segment → Option Path
  | [] => none
  | s :: rest =>
      match ofSegments? rest with
      | none => some (.last s)
      | some next => some (.step s next)

def ofIdentifiers? (identifiers : List String) : Option Path :=
  ofSegments? (identifiers.map Segment.ofIdentifier)

def count : Path → Nat
  | .last _ => 1
  | .step _ next => next.count + 1

/-- Moves segments one by one onto a chain that is already reversed. -/
def reversedOnto (built : Path) : Path → Path
  | .last s => .step s built
  | .step s next => reversedOnto (.step s built) next

def reversed : Path → Path
  | .last s => .last s
  | .step s next => reversedOnto (.last s) next

/-- Agreement of identifiers in lockstep; kinds and keys do not count. -/
def samePath : Path → Path → Bool
  | .last a, .last b => a.identifier == b.identifier
  | .step a p, .step b q => a.identifier == b.identifier && samePath p q
  | _, _ => false

theorem count_pos (p : Path) : 0 < p.count := by
  cases p <;> simp [count]

def identifiers (p : Path) : List String := p.segments.map Segment.identifier

def isKeyed (p : Path) : Bool := p.segments.any (·.keys.isSome)

/-- The identifiers between slashes, without keys. -/
def display (p : Path) : List Char := join ['/'] (p.identifiers.map String.toList)

theorem count_eq_length (p : Path) : p.count = p.segments.length := by
  induction p with
  | last s => rfl
  | step s next ih => simp [count, segments, ih]

theorem head_cons_segments (p : Path) : p.segments.head? = some p.head := by
  cases p <;> rfl

theorem final_eq_getLast (p : Path) : p.segments.getLast? = some p.final := by
  induction p with
  | last s => rfl
  | step s next ih => simp [segments, final, List.getLast?_cons, ih]

theorem segments_reversedOnto (built p : Path) :
    (reversedOnto built p).segments = p.segments.reverse ++ built.segments := by
  induction p generalizing built with
  | last s => rfl
  | step s next ih => simp [reversedOnto, segments, ih]

/-- Reversing a chain reverses its list of segments. -/
theorem segments_reversed (p : Path) : p.reversed.segments = p.segments.reverse := by
  cases p with
  | last s => rfl
  | step s next => simp [reversed, segments, segments_reversedOnto]

theorem samePath_iff (p q : Path) : p.samePath q = true ↔ p.identifiers = q.identifiers := by
  induction p generalizing q with
  | last a =>
    cases q with
    | last b => simp [samePath, identifiers, segments]
    | step b next =>
      have hne := List.ne_nil_of_length_pos (next.count_eq_length ▸ next.count_pos)
      simp [samePath, identifiers, segments, hne]
  | step a next ih =>
    cases q with
    | last b =>
      have hne := List.ne_nil_of_length_pos (next.count_eq_length ▸ next.count_pos)
      simp [samePath, identifiers, segments, hne]
    | step b other =>
      have hnext := ih other
      simp only [identifiers] at hnext
      simp [samePath, identifiers, segments, hnext]

theorem segments_ne_nil (p : Path) : p.segments ≠ [] := by
  cases p <;> simp [segments]

theorem ofSegments?_segments (p : Path) : ofSegments? p.segments = some p := by
  induction p with
  | last s => rfl
  | step s next ih => simp [segments, ofSegments?, ih]

theorem segments_of_ofSegments? {segs : List Segment} {p : Path}
    (h : ofSegments? segs = some p) : p.segments = segs := by
  induction segs generalizing p with
  | nil => simp [ofSegments?] at h
  | cons s rest ih =>
    simp only [ofSegments?] at h
    split at h
    next hrest =>
      cases h
      cases rest with
      | nil => rfl
      | cons t more =>
        simp only [ofSegments?] at hrest
        split at hrest <;> simp at hrest
    next next hnext =>
      cases h
      simp [segments, ih hnext]

end Path

end ExpandTree
