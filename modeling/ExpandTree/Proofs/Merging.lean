import ExpandTree.Normalization
import ExpandTree.Proofs.Equality
import Mathlib.Logic.Basic

/-!
Merging the terms of one clause. A merge keeps the first term and adds select and expand of the
second; it is associative, so the terms of one path may be merged in any grouping. Merging a clause
takes its first term with all later terms of that path, and goes on with the terms of other paths.
-/
namespace ExpandTree

namespace Path

theorem samePath_eq (p q : Path) : p.samePath q = (p.identifiers == q.identifiers) := by
  rw [Bool.eq_iff_iff, samePath_iff, beq_iff_eq]

theorem samePath_comm (p q : Path) : p.samePath q = q.samePath p := by
  rw [samePath_eq, samePath_eq, BEq.comm]

/-- Paths with the same identifiers cannot be told apart by them. -/
theorem samePath_congr {p q : Path} (h : p.samePath q = true) (r : Path) :
    p.samePath r = q.samePath r := by
  rw [samePath_eq, samePath_eq, (samePath_iff p q).mp h]

end Path

section Union

theorem unite_append (first second third : Select) :
    unite first (second ++ third) = unite (unite first second) third := by
  induction second generalizing first with
  | nil => rfl
  | cons item rest ih => exact ih _

theorem contains_unite_of_contains {first : Select} {item : SelectItem}
    (h : first.contains item = true) (second : Select) :
    (unite first second).contains item = true := by
  induction second generalizing first with
  | nil => exact h
  | cons next rest ih =>
    apply ih
    split
    · exact h
    · simp [h]

/-- What a union was given is in it or has an equal there. -/
theorem mem_or_contains_unite (first second : Select) {item : SelectItem}
    (h : item ∈ first ∨ item ∈ second) :
    item ∈ unite first second ∨ (unite first second).contains item = true := by
  induction second generalizing first with
  | nil => exact Or.inl (h.resolve_right List.not_mem_nil)
  | cons next rest ih =>
    simp only [unite]
    by_cases hnext : first.contains next = true
    · rw [if_pos hnext]
      rcases h with h | h
      · exact ih first (Or.inl h)
      · rcases List.mem_cons.mp h with rfl | h
        · exact Or.inr (contains_unite_of_contains hnext rest)
        · exact ih first (Or.inr h)
    · rw [if_neg hnext]
      apply ih
      rcases h with h | h
      · exact Or.inl (List.mem_append_left _ h)
      · rcases List.mem_cons.mp h with rfl | h
        · exact Or.inl (List.mem_append_right _ (List.mem_singleton.mpr rfl))
        · exact Or.inr h

/-- An item with an equal in the second list has one in the union, for equality is transitive. -/
theorem contains_unite_right {second : Select} {item : SelectItem}
    (h : second.contains item = true) (first : Select) :
    (unite first second).contains item = true := by
  obtain ⟨other, hother, heq⟩ := List.contains_iff_exists_mem_beq.mp h
  rcases mem_or_contains_unite first second (Or.inr hother) with hmem | hcontains
  · exact List.contains_iff_exists_mem_beq.mpr ⟨other, hmem, heq⟩
  · obtain ⟨kept, hkept, heq'⟩ := List.contains_iff_exists_mem_beq.mp hcontains
    exact List.contains_iff_exists_mem_beq.mpr ⟨kept, hkept, BEq.trans heq heq'⟩

theorem unite_assoc (first second third : Select) :
    unite (unite first second) third = unite first (unite second third) := by
  induction third generalizing second with
  | nil => rfl
  | cons item rest ih =>
    simp only [unite]
    rw [← ih]
    congr 1
    by_cases h : second.contains item = true
    · rw [if_pos h, if_pos (contains_unite_right h first)]
    · rw [if_neg h, unite_append]
      rfl

theorem joinOptions_assoc {α : Type} {join : α → α → α}
    (h : ∀ a b c, join (join a b) c = join a (join b c)) (a b c : Option α) :
    joinOptions join (joinOptions join a b) c = joinOptions join a (joinOptions join b c) := by
  cases a <;> cases b <;> cases c <;> simp [joinOptions, h]

end Union

namespace Term

theorem merge_assoc (a b c : Term) : (a.merge b).merge c = a.merge (b.merge c) := by
  have hselect := joinOptions_assoc unite_assoc a.select b.select c.select
  have hexpand := joinOptions_assoc List.append_assoc a.expand b.expand c.expand
  simp only [merge]
  exact congrArg₂ (Term.mk a.path a.modifiers) hselect hexpand

theorem foldl_merge (a b : Term) (terms : Clause) :
    terms.foldl merge (a.merge b) = a.merge (terms.foldl merge b) := by
  induction terms generalizing b with
  | nil => rfl
  | cons t rest ih => rw [List.foldl_cons, merge_assoc, ih, List.foldl_cons]

@[simp] theorem merge_path (a b : Term) : (a.merge b).path = a.path := rfl

@[simp] theorem merge_modifiers (a b : Term) : (a.merge b).modifiers = a.modifiers := rfl

theorem foldl_merge_path (a : Term) (terms : Clause) :
    (terms.foldl merge a).path = a.path := by
  induction terms generalizing a with
  | nil => rfl
  | cons t rest ih => rw [List.foldl_cons, ih, merge_path]

theorem foldl_merge_modifiers (a : Term) (terms : Clause) :
    (terms.foldl merge a).modifiers = a.modifiers := by
  induction terms generalizing a with
  | nil => rfl
  | cons t rest ih => rw [List.foldl_cons, ih, merge_modifiers]

end Term

namespace Clause

/-- The terms that name a path. -/
def onPath (p : Path) (clause : Clause) : Clause := clause.filter fun t => p.samePath t.path

/-- The terms that name other paths. -/
def offPath (p : Path) (clause : Clause) : Clause := clause.filter fun t => !p.samePath t.path

/-- Merges terms one by one into a clause. -/
def absorb (terms : Clause) (clause : Clause) : Clause :=
  clause.foldl (fun terms t => insert t terms) terms

theorem absorb_append (terms a b : Clause) :
    absorb terms (a ++ b) = absorb (absorb terms a) b := List.foldl_append

/-- The head of a clause takes the terms of its path, and its tail takes the others. -/
theorem absorb_cons (first : Term) (terms clause : Clause) :
    absorb (first :: terms) clause =
      (onPath first.path clause).foldl Term.merge first ::
        absorb terms (offPath first.path clause) := by
  induction clause generalizing first terms with
  | nil => rfl
  | cons t rest ih =>
    change absorb (insert t (first :: terms)) rest = _
    by_cases h : first.path.samePath t.path = true
    · simp [insert, onPath, offPath, h, ih]
    · simp only [Bool.not_eq_true] at h
      simp [insert, onPath, offPath, h, ih]
      rfl

theorem merged_cons (first : Term) (rest : Clause) :
    merged (first :: rest) =
      (onPath first.path rest).foldl Term.merge first :: merged (offPath first.path rest) :=
  absorb_cons first [] rest

/-- A clause taken apart path by path. -/
theorem offPath_induction {motive : Clause → Prop} (nil : motive [])
    (cons : ∀ first rest, motive (offPath first.path rest) → motive (first :: rest))
    (clause : Clause) : motive clause := by
  have aux : ∀ n, ∀ c : Clause, c.length = n → motive c := by
    intro n
    induction n using Nat.strongRecOn with
    | ind n ih =>
      intro c hc
      cases c with
      | nil => exact nil
      | cons first rest =>
        have hle : (offPath first.path rest).length ≤ rest.length := List.length_filter_le ..
        rw [List.length_cons] at hc
        exact cons first rest (ih _ (by omega) _ rfl)
  exact aux clause.length clause rfl

/-- A choice between paths that only looks at identifiers may be made before merging or after. -/
theorem merged_filter {keep : Path → Bool} (h : ∀ p q, p.samePath q = true → keep p = keep q)
    (clause : Clause) :
    merged (clause.filter fun t => keep t.path) = (merged clause).filter fun t => keep t.path := by
  induction clause using offPath_induction with
  | nil => rfl
  | cons first rest ih =>
    rw [merged_cons, List.filter_cons, List.filter_cons, Term.foldl_merge_path, ← ih]
    by_cases hkeep : keep first.path = true
    · have hon : onPath first.path (rest.filter fun t => keep t.path) =
          onPath first.path rest := by
        rw [onPath, List.filter_filter]
        apply List.filter_congr
        intro t _
        by_cases hsame : first.path.samePath t.path = true
        · rw [hsame, ← h _ _ hsame, hkeep, Bool.and_true]
        · simp [hsame]
      have hoff : offPath first.path (rest.filter fun t => keep t.path) =
          (offPath first.path rest).filter fun t => keep t.path := by
        simp only [offPath, List.filter_filter, Bool.and_comm]
      rw [if_pos hkeep, if_pos hkeep, merged_cons, hon, hoff]
    · have hoff : (offPath first.path rest).filter (fun t => keep t.path) =
          rest.filter fun t => keep t.path := by
        rw [offPath, List.filter_filter]
        apply List.filter_congr
        intro t _
        by_cases hsame : first.path.samePath t.path = true
        · simp [← h _ _ hsame, hkeep]
        · simp [hsame]
      rw [if_neg hkeep, if_neg hkeep, hoff]

theorem merged_onPath (p : Path) (clause : Clause) :
    merged (onPath p clause) = onPath p (merged clause) :=
  merged_filter (fun q r h => by simp [Path.samePath_eq, (Path.samePath_iff q r).mp h]) clause

theorem merged_offPath (p : Path) (clause : Clause) :
    merged (offPath p clause) = offPath p (merged clause) :=
  @merged_filter (fun q => !p.samePath q)
    (fun q r h => by simp [Path.samePath_eq, (Path.samePath_iff q r).mp h]) clause

theorem onPath_offPath (p : Path) (clause : Clause) : onPath p (offPath p clause) = [] := by
  simp [onPath, offPath, List.filter_filter]

theorem offPath_offPath (p : Path) (clause : Clause) :
    offPath p (offPath p clause) = offPath p clause := by
  simp [offPath, List.filter_filter]

theorem offPath_onPath (p : Path) (clause : Clause) : offPath p (onPath p clause) = [] := by
  simp [onPath, offPath, List.filter_filter]

/-- Merging is done after one pass. -/
theorem merged_merged (clause : Clause) : merged (merged clause) = merged clause := by
  induction clause using offPath_induction with
  | nil => rfl
  | cons first rest ih =>
    rw [merged_cons, merged_cons, Term.foldl_merge_path, ← merged_onPath, onPath_offPath,
      ← merged_offPath, offPath_offPath, ih]
    rfl

/-- Terms of one path may be merged among themselves before they are merged into a term. -/
theorem foldl_merge_merged_onPath (t : Term) (clause : Clause) :
    (merged (onPath t.path clause)).foldl Term.merge t =
      (onPath t.path clause).foldl Term.merge t := by
  cases hon : onPath t.path clause with
  | nil => rfl
  | cons first rest =>
    have hall : ∀ u ∈ first :: rest, t.path.samePath u.path = true := by
      intro u hu
      rw [← hon] at hu
      exact (List.mem_filter.mp hu).2
    obtain ⟨hfirst, hrest⟩ := List.forall_mem_cons.mp hall
    have hon' : onPath first.path rest = rest := by
      apply List.filter_eq_self.mpr
      intro u hu
      rw [← Path.samePath_congr hfirst]
      exact hrest u hu
    have hoff' : offPath first.path rest = [] := by rw [← hon', offPath_onPath]
    have hone : merged (first :: rest) = [rest.foldl Term.merge first] := by
      rw [merged_cons, hon', hoff']
      rfl
    rw [hone]
    exact (Term.foldl_merge t first rest).symm

theorem absorb_merged (terms clause : Clause) :
    absorb terms (merged clause) = absorb terms clause := by
  induction terms generalizing clause with
  | nil => exact merged_merged clause
  | cons first rest ih =>
    rw [absorb_cons, absorb_cons, ← merged_onPath, ← merged_offPath, ih,
      foldl_merge_merged_onPath]

/-- Merging in pieces is merging at once. -/
theorem merged_append (a b : Clause) : merged (a ++ b) = merged (merged a ++ merged b) := by
  have hleft : merged (a ++ b) = absorb (merged a) b := absorb_append [] a b
  have hright : merged (merged a ++ merged b) = absorb (merged (merged a)) (merged b) :=
    absorb_append [] (merged a) (merged b)
  rw [hleft, hright, merged_merged, absorb_merged]

end Clause

end ExpandTree
