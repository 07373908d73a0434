import ExpandTree.Proofs.Combining

/-!
Combining as grouping by path. The terms of a combined clause stand for the paths of the clause in
the order of their first occurrence; each of them is gathered from all terms of its path.
-/
namespace ExpandTree

/-- The first select, and those items of the later ones that equal none before them. -/
def gatheredSelect : List Select → Option Select
  | [] => none
  | first :: later => some (first ++ (later.flatten.filter (!first.contains ·)).eraseDups)

/-- All nested clauses one after the other, combined. -/
def gatheredExpand : List Clause → Option Clause
  | [] => none
  | first :: later => some (Clause.combined (first :: later).flatten)

/-- One term for terms of the same path: select and expand are gathered from all of them, path and
modifiers are those of the first. -/
def gathered : List Term → Option Term
  | [] => none
  | first :: later =>
      some { first with
        select := gatheredSelect ((first :: later).filterMap Term.select)
        expand := gatheredExpand ((first :: later).filterMap Term.expand) }

theorem unite_eq (first second : Select) :
    unite first second = first ++ (second.filter (!first.contains ·)).eraseDups := by
  induction second generalizing first with
  | nil => simp [unite]
  | cons item rest ih =>
    rw [unite, ih, List.filter_cons]
    by_cases h : first.contains item = true
    · simp only [h, if_true, Bool.not_true, Bool.false_eq_true, if_false]
    · rw [Bool.not_eq_true] at h
      simp only [h, Bool.false_eq_true, if_false, Bool.not_false, if_true]
      rw [List.eraseDups_cons, List.filter_filter, List.append_assoc, List.singleton_append]
      simp only [List.contains_append, List.contains_cons, List.contains_nil, Bool.or_false,
        Bool.not_or, Bool.and_comm]

theorem foldl_unite (first : Select) (later : List Select) :
    later.foldl unite first = unite first later.flatten := by
  induction later generalizing first with
  | nil => rfl
  | cons next rest ih => rw [List.foldl_cons, ih, List.flatten_cons, unite_append]

theorem foldl_append_eq {α : Type} (first : List α) (later : List (List α)) :
    later.foldl List.append first = first ++ later.flatten := by
  induction later generalizing first with
  | nil => exact (List.append_nil _).symm
  | cons next rest ih =>
    rw [List.foldl_cons, ih, List.flatten_cons]
    exact List.append_assoc ..

namespace Term

/-- What merging makes of an option that it joins: the values that are present, joined in order. -/
theorem foldl_merge_joined {α : Type} {join : α → α → α} {f : Term → Option α}
    (hmerge : ∀ first second : Term, f (first.merge second) = joinOptions join (f first) (f second))
    (t : Term) (terms : Clause) :
    f (terms.foldl merge t) =
      match (t :: terms).filterMap f with
      | [] => none
      | a :: rest => some (rest.foldl join a) := by
  induction terms generalizing t with
  | nil =>
    rw [List.foldl_nil, List.filterMap_cons, List.filterMap_nil]
    cases f t <;> rfl
  | cons next rest ih =>
    rw [List.foldl_cons, ih]
    simp only [List.filterMap_cons, hmerge]
    cases f t with
    | none => rfl
    | some a => cases f next <;> rfl

theorem foldl_merge_select (t : Term) (terms : Clause) :
    (terms.foldl merge t).select = gatheredSelect ((t :: terms).filterMap select) := by
  rw [foldl_merge_joined (f := select) fun _ _ => rfl]
  cases (t :: terms).filterMap select with
  | nil => rfl
  | cons first later => exact congrArg some (by rw [foldl_unite, unite_eq])

theorem foldl_merge_expand (t : Term) (terms : Clause) :
    ((terms.foldl merge t).mapExpand Clause.combined).expand =
      gatheredExpand ((t :: terms).filterMap expand) := by
  rw [mapExpand, foldl_merge_joined (f := expand) fun _ _ => rfl]
  cases (t :: terms).filterMap expand with
  | nil => rfl
  | cons first later =>
    simp only [Option.map_some, gatheredExpand, foldl_append_eq, List.flatten_cons]

theorem gathered_cons (first : Term) (later : Clause) :
    gathered (first :: later) = some ((later.foldl merge first).mapExpand Clause.combined) := by
  have hexpand := foldl_merge_expand first later
  simp only [mapExpand] at hexpand
  simp only [gathered, mapExpand, foldl_merge_path, foldl_merge_modifiers, foldl_merge_select,
    hexpand]

end Term

namespace Clause

theorem onPath_eq (p : Path) (clause : Clause) :
    onPath p clause = clause.filter (·.path.identifiers = p.identifiers) := by
  apply List.filter_congr
  intro t _
  rw [Path.samePath_eq, Bool.eq_iff_iff, beq_iff_eq, decide_eq_true_iff, eq_comm]

theorem map_identifiers_merged (clause : Clause) :
    (merged clause).map (·.path.identifiers) = (clause.map (·.path.identifiers)).eraseDups := by
  induction clause using offPath_induction with
  | nil => rfl
  | cons first rest ih =>
    have hoff : offPath first.path rest = rest.filter
        ((fun ids => !ids == first.path.identifiers) ∘ fun t => t.path.identifiers) := by
      apply List.filter_congr
      intro t _
      rw [Path.samePath_eq, Function.comp_apply, BEq.comm]
    rw [merged_cons, List.map_cons, List.map_cons, List.eraseDups_cons, ih, Term.foldl_merge_path,
      List.filter_map, hoff]

/-- A merged term is made of all terms of its path, in order. -/
theorem mem_merged {t : Term} {clause : Clause} (h : t ∈ merged clause) :
    ∃ first later, onPath t.path clause = first :: later ∧ t = later.foldl Term.merge first := by
  induction clause using offPath_induction with
  | nil => cases h
  | cons first rest ih =>
    rw [merged_cons] at h
    rcases List.mem_cons.mp h with rfl | h
    · have hself : first.path.samePath first.path = true := (Path.samePath_iff _ _).mpr rfl
      refine ⟨first, onPath first.path rest, ?_, rfl⟩
      rw [Term.foldl_merge_path, onPath, List.filter_cons, if_pos hself, onPath]
    · obtain ⟨u, later, hon, heq⟩ := ih h
      refine ⟨u, later, ?_, heq⟩
      rw [merged_offPath] at h
      have hne : first.path.samePath t.path = false := by simpa using (List.mem_filter.mp h).2
      have hne' : t.path.samePath first.path = false := by rwa [Path.samePath_comm]
      rw [← hon, onPath, List.filter_cons, hne', onPath, offPath, List.filter_filter]
      apply List.filter_congr
      intro v _
      by_cases hv : t.path.samePath v.path = true
      · rw [Path.samePath_comm first.path, ← Path.samePath_congr hv, hne', hv]
        rfl
      · simp [hv]

/-- Combining groups the terms of a clause by the identifiers of their paths, in the order of first
occurrence, and gathers each group into one term. -/
theorem combined_groups (clause : Clause) :
    (combined clause).map some =
      (clause.map (·.path.identifiers)).eraseDups.map fun identifiers =>
        gathered (clause.filter (·.path.identifiers = identifiers)) := by
  rw [combined_eq, ← map_identifiers_merged, List.map_map, List.map_map]
  apply List.map_congr_left
  intro t ht
  obtain ⟨first, later, hon, heq⟩ := mem_merged ht
  rw [Function.comp_apply, Function.comp_apply, ← onPath_eq, hon, Term.gathered_cons, ← heq]

end Clause

end ExpandTree
