import ExpandTree.Proofs.Combining
import ExpandTree.Proofs.Contents

/-!
Trees that combining leaves alone. A combined tree names no path twice in a clause, at whatever
depth, for nested clauses are combined only after all terms of their level have been merged; and a
tree that names no path twice has nothing to merge. So these trees are exactly the combined ones.
-/
namespace ExpandTree

/-- The clause that a token is. -/
def Token.clauses : Token → List Clause
  | .clause c => [c]
  | _ => []

theorem Token.mem_clauses_iff {token : Token} {c : Clause} :
    c ∈ token.clauses ↔ token = .clause c := by
  cases token <;> simp [clauses, eq_comm]

namespace Clause

/-- The clause and the clauses nested in its terms, at every depth. -/
def clauses (clause : Clause) : List Clause := (treeTokens clause).flatMap Token.clauses

/-- No two terms name the same path. -/
def PathsDiffer (clause : Clause) : Prop :=
  clause.Pairwise fun t u => t.path.samePath u.path = false

/-- Paths differ in every clause of the tree. -/
def PathsDifferThroughout (clause : Clause) : Prop := ∀ c ∈ clause.clauses, c.PathsDiffer

end Clause

/-- Work on the nested clause, if it leaves one without terms as it is. -/
theorem Term.nested_mapExpand {f : Clause → Clause} (h : f [] = []) (t : Term) :
    (t.mapExpand f).nested = f t.nested := by
  simp only [nested, mapExpand]
  cases t.expand with
  | none => exact h.symm
  | some terms => rfl

namespace Clause

/-- A fact about all clauses of a tree is one about the top and about those nested in its terms. -/
theorem forall_clauses_iff {P : Clause → Prop} {clause : Clause} :
    (∀ c ∈ clause.clauses, P c) ↔
      P clause ∧ ∀ t ∈ clause, ∀ terms ∈ t.expand, ∀ c ∈ clauses terms, P c := by
  simp only [clauses, List.forall_mem_flatMap, Token.mem_clauses_iff, forall_treeTokens_iff]
  refine and_congr (by simp) (forall₂_congr fun t _ => ?_)
  obtain ⟨path, m, select, expand⟩ := t
  have hm : (∀ token ∈ m.tokens select, ∀ c, token = .clause c → P c) ↔ True := by
    refine iff_true_intro ?_
    rintro token htoken c rfl
    cases m.tokens_do_not_nest select _ htoken
  simp only [Term.forall_tokens_iff, hm]
  simp

theorem pathsDifferThroughout_nil : PathsDifferThroughout [] :=
  forall_clauses_iff.mpr ⟨List.Pairwise.nil, fun _ ht => absurd ht List.not_mem_nil⟩

theorem pathsDifferThroughout_iff {clause : Clause} :
    clause.PathsDifferThroughout ↔
      clause.PathsDiffer ∧ ∀ t ∈ clause, t.nested.PathsDifferThroughout := by
  refine forall_clauses_iff.trans (and_congr_right fun _ => forall₂_congr fun t _ => ?_)
  unfold Term.nested
  cases t.expand with
  | none => simp [pathsDifferThroughout_nil]
  | some terms => simp [PathsDifferThroughout]

theorem pathsDiffer_cons {t : Term} {clause : Clause} :
    PathsDiffer (t :: clause) ↔
      (∀ u ∈ clause, t.path.samePath u.path = false) ∧ PathsDiffer clause :=
  List.pairwise_cons

/-- Work on nested clauses does not touch the paths of a clause. -/
theorem pathsDiffer_map_mapExpand {f : Clause → Clause} {clause : Clause} :
    PathsDiffer (clause.map (Term.mapExpand f)) ↔ clause.PathsDiffer :=
  List.pairwise_map

/-- Merging leaves one term of each path. -/
theorem pathsDiffer_merged (clause : Clause) : PathsDiffer (merged clause) := by
  induction clause using offPath_induction with
  | nil => exact List.Pairwise.nil
  | cons first rest ih =>
    rw [merged_cons, pathsDiffer_cons]
    refine ⟨?_, ih⟩
    intro u hu
    rw [merged_offPath] at hu
    have hoff := (List.mem_filter.mp hu).2
    rw [Term.foldl_merge_path]
    simpa using hoff

/-- A clause with one term of each path has nothing to merge. -/
theorem merged_eq_self {clause : Clause} (h : clause.PathsDiffer) : merged clause = clause := by
  induction clause with
  | nil => rfl
  | cons first rest ih =>
    obtain ⟨hfirst, hrest⟩ := pathsDiffer_cons.mp h
    have hon : onPath first.path rest = [] := by
      apply List.filter_eq_nil_iff.mpr
      intro u hu
      rw [hfirst u hu]
      exact Bool.false_ne_true
    have hoff : offPath first.path rest = rest := by
      apply List.filter_eq_self.mpr
      intro u hu
      rw [hfirst u hu]
      rfl
    rw [merged_cons, hon, hoff, ih hrest]
    rfl

/-- Duplicates that come from two parents are merged as well: their clause is combined after its
terms have come together. -/
theorem pathsDifferThroughout_combined (clause : Clause) :
    PathsDifferThroughout (combined clause) := by
  induction clause using combined_induction with
  | merged clause ih =>
    rw [combined_eq, pathsDifferThroughout_iff, pathsDiffer_map_mapExpand]
    refine ⟨pathsDiffer_merged clause, ?_⟩
    intro t ht
    obtain ⟨u, hu, rfl⟩ := List.mem_map.mp ht
    rw [Term.nested_mapExpand piecewise_combined.nil]
    exact ih u hu

theorem combined_eq_self {clause : Clause} (h : clause.PathsDifferThroughout) :
    combined clause = clause := by
  induction clause using combined_induction with
  | merged clause ih =>
    obtain ⟨hclause, hnested⟩ := pathsDifferThroughout_iff.mp h
    have hmerged := merged_eq_self hclause
    rw [hmerged] at ih
    have hterm : ∀ t ∈ clause, t.mapExpand combined = t := by
      intro t ht
      have hterms := ih t ht (hnested t ht)
      obtain ⟨p, m, s, e⟩ := t
      cases e with
      | none => rfl
      | some terms => exact congrArg (fun c => Term.mk p m s (some c)) hterms
    calc combined clause
        = clause.map (Term.mapExpand combined) := by rw [combined_eq, hmerged]
      _ = clause.map id := List.map_congr_left hterm
      _ = clause := List.map_id clause

/-- The combined trees are those that name no path twice in any of their clauses, and these are the
trees that combining leaves as they are. -/
theorem combined_eq_self_iff (clause : Clause) :
    PathsDifferThroughout (combined clause) ∧
      (combined clause = clause ↔ clause.PathsDifferThroughout) := by
  refine ⟨pathsDifferThroughout_combined clause, ?_, combined_eq_self⟩
  intro h
  rw [← h]
  exact pathsDifferThroughout_combined clause

end Clause

end ExpandTree
