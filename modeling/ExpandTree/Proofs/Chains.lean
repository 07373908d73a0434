import ExpandTree.Proofs.DistinctPaths
import Mathlib.Data.Finset.Card
import Mathlib.Data.Finset.Dedup
import Mathlib.Data.List.Nodup

/-!
Chains of a tree: the paths that lead from a term at the top down to some term. The summary of a
tree counts its chains and measures the longest. Combining keeps the set of chains, and in a
combined tree every chain occurs once, so it has as many terms as there are distinct chains.
-/
namespace ExpandTree

/-- The identifiers of the paths on the way down to a term, the path of the term last. -/
abbrev Chain := List (List String)

namespace Term

mutual

def chains : Term → List Chain
  | ⟨path, _, _, none⟩ => [[path.identifiers]]
  | ⟨path, _, _, some terms⟩ =>
      [path.identifiers] :: (chainsOfAll terms).map (path.identifiers :: ·)
  termination_by structural t => t

def chainsOfAll : List Term → List Chain
  | [] => []
  | t :: rest => t.chains ++ chainsOfAll rest
  termination_by structural terms => terms

end

theorem chainsOfAll_eq (terms : List Term) : chainsOfAll terms = terms.flatMap chains :=
  eq_flatMap_of_cons rfl (fun _ _ => rfl) terms

end Term

namespace Clause

def chains (clause : Clause) : List Chain := Term.chainsOfAll clause

theorem chains_eq (clause : Clause) : clause.chains = clause.flatMap Term.chains :=
  Term.chainsOfAll_eq clause

theorem chains_cons (t : Term) (clause : Clause) :
    chains (t :: clause) = t.chains ++ clause.chains := rfl

theorem chains_append (a b : Clause) : chains (a ++ b) = a.chains ++ b.chains := by
  simp only [chains_eq, List.flatMap_append]

theorem mem_chains {clause : Clause} {chain : Chain} :
    chain ∈ clause.chains ↔ ∃ t ∈ clause, chain ∈ t.chains := by
  rw [chains_eq, List.mem_flatMap]

end Clause

namespace Term

/-- The chains of a term are its own path, alone and before the chains of its nested clause. -/
theorem chains_eq (t : Term) :
    t.chains = [t.path.identifiers] :: t.nested.chains.map (t.path.identifiers :: ·) := by
  obtain ⟨p, m, s, e⟩ := t
  cases e <;> rfl

theorem mem_chains {t : Term} {chain : Chain} :
    chain ∈ t.chains ↔ chain = [t.path.identifiers] ∨
      ∃ rest ∈ t.nested.chains, t.path.identifiers :: rest = chain := by
  rw [chains_eq, List.mem_cons, List.mem_map]

theorem nested_merge (a b : Term) : (a.merge b).nested = a.nested ++ b.nested := by
  simp only [nested, merge]
  cases a.expand with
  | none => cases b.expand <;> rfl
  | some terms =>
    cases b.expand with
    | none => exact (List.append_nil terms).symm
    | some more => rfl

/-- A merged term starts the chains of both, for their paths have the same identifiers. -/
theorem mem_chains_merge {a b : Term} (h : a.path.samePath b.path = true) {chain : Chain} :
    chain ∈ (a.merge b).chains ↔ chain ∈ a.chains ∨ chain ∈ b.chains := by
  have hpath := (Path.samePath_iff _ _).mp h
  simp only [mem_chains, nested_merge, merge_path, Clause.chains_append, List.mem_append, ← hpath]
  constructor
  · rintro (hown | ⟨rest, hrest | hrest, heq⟩)
    · exact Or.inl (Or.inl hown)
    · exact Or.inl (Or.inr ⟨rest, hrest, heq⟩)
    · exact Or.inr (Or.inr ⟨rest, hrest, heq⟩)
  · rintro ((hown | ⟨rest, hrest, heq⟩) | hown | ⟨rest, hrest, heq⟩)
    · exact Or.inl hown
    · exact Or.inr ⟨rest, Or.inl hrest, heq⟩
    · exact Or.inl hown
    · exact Or.inr ⟨rest, Or.inr hrest, heq⟩

end Term

namespace Clause

theorem mem_chains_insert {t : Term} {clause : Clause} {chain : Chain} :
    chain ∈ chains (insert t clause) ↔ chain ∈ clause.chains ∨ chain ∈ t.chains := by
  induction clause with
  | nil => rw [insert, chains_cons, List.mem_append, or_comm]
  | cons first rest ih =>
    rw [insert]
    by_cases hsame : first.path.samePath t.path = true
    · rw [if_pos hsame, chains_cons, chains_cons, List.mem_append, List.mem_append,
        Term.mem_chains_merge hsame, or_right_comm]
    · rw [if_neg hsame, chains_cons, chains_cons, List.mem_append, List.mem_append, ih, or_assoc]

theorem mem_chains_absorb {terms clause : Clause} {chain : Chain} :
    chain ∈ chains (absorb terms clause) ↔ chain ∈ terms.chains ∨ chain ∈ clause.chains := by
  induction clause generalizing terms with
  | nil => exact (or_iff_left List.not_mem_nil).symm
  | cons t rest ih =>
    change chain ∈ chains (absorb (insert t terms) rest) ↔ _
    rw [ih, mem_chains_insert, chains_cons, List.mem_append, or_assoc]

theorem mem_chains_merged {clause : Clause} {chain : Chain} :
    chain ∈ chains (merged clause) ↔ chain ∈ clause.chains := by
  have h := @mem_chains_absorb [] clause chain
  exact h.trans (or_iff_right List.not_mem_nil)

/-- Combining loses no chain and makes no new one. -/
theorem mem_chains_combined {clause : Clause} {chain : Chain} :
    chain ∈ chains (combined clause) ↔ chain ∈ clause.chains := by
  induction clause using combined_induction generalizing chain with
  | merged clause ih =>
    have hterm : ∀ t ∈ merged clause,
        chain ∈ (t.mapExpand combined).chains ↔ chain ∈ t.chains := by
      intro t ht
      have hpath : (t.mapExpand combined).path = t.path := rfl
      simp only [Term.mem_chains, Term.nested_mapExpand piecewise_combined.nil, hpath, ih t ht]
    calc chain ∈ chains (combined clause)
        ↔ ∃ t ∈ merged clause, chain ∈ (t.mapExpand combined).chains := by
          simp only [combined_eq, mem_chains, List.mem_map, exists_exists_and_eq_and]
      _ ↔ ∃ t ∈ merged clause, chain ∈ t.chains :=
          exists_congr fun t => and_congr_right (hterm t)
      _ ↔ chain ∈ clause.chains := by rw [← mem_chains, mem_chains_merged]

theorem ne_nil_of_mem_chains {clause : Clause} {chain : Chain} (h : chain ∈ clause.chains) :
    chain ≠ [] := by
  obtain ⟨t, -, ht⟩ := mem_chains.mp h
  rcases Term.mem_chains.mp ht with rfl | ⟨rest, -, rfl⟩ <;> exact List.cons_ne_nil _ _

end Clause

namespace Term

theorem head_of_mem_chains {t : Term} {chain : Chain} (h : chain ∈ t.chains) :
    chain.head? = some t.path.identifiers := by
  rcases mem_chains.mp h with rfl | ⟨rest, -, rfl⟩ <;> rfl

/-- Chains do not repeat at a term when they do not in its nested clause. -/
theorem nodup_chains {t : Term} (h : t.nested.chains.Nodup) : t.chains.Nodup := by
  rw [chains_eq, List.nodup_cons]
  constructor
  · intro hmem
    obtain ⟨rest, hrest, heq⟩ := List.mem_map.mp hmem
    exact Clause.ne_nil_of_mem_chains hrest (List.cons.inj heq).2
  · exact h.map (List.cons_injective)

end Term

namespace Clause

/-- Where no path is named twice, no chain occurs twice: chains that start at different terms of a
clause have different paths in front. -/
theorem nodup_chains {clause : Clause} (h : clause.PathsDifferThroughout) :
    clause.chains.Nodup := by
  induction clause using Clause.induction with
  | clause clause ih =>
    obtain ⟨hclause, hnested⟩ := pathsDifferThroughout_iff.mp h
    rw [chains_eq, List.nodup_flatMap]
    refine ⟨fun t ht => Term.nodup_chains (ih t ht (hnested t ht)), hclause.imp ?_⟩
    intro t u htu chain ht hu
    have hhead : t.path.identifiers = u.path.identifiers :=
      Option.some.inj ((Term.head_of_mem_chains ht).symm.trans (Term.head_of_mem_chains hu))
    rw [(Path.samePath_iff _ _).mpr hhead] at htu
    cases htu

end Clause

namespace Summary

theorem ofTerm_eq (t : Term) : ofTerm t = under (ofClause t.nested) := by
  obtain ⟨p, m, s, e⟩ := t
  cases e <;> rfl

/-- A tree has as many terms as chains, for each chain leads to one term. -/
theorem terms_ofClause (clause : Clause) : (ofClause clause).terms = clause.chains.length := by
  induction clause using Clause.cons_induction with
  | nil => rfl
  | cons t rest ihnested ihrest =>
    have hterm : (ofTerm t).terms = t.chains.length := by
      rw [ofTerm_eq, Term.chains_eq, List.length_cons, List.length_map, ← ihnested]
      rfl
    rw [Clause.chains_cons, List.length_append, ← hterm, ← ihrest]
    rfl

/-- The depth of a tree bounds the length of its chains, and nothing less does. -/
theorem depth_ofClause_le_iff {clause : Clause} {n : Nat} :
    (ofClause clause).depth ≤ n ↔ ∀ chain ∈ clause.chains, chain.length ≤ n := by
  induction clause using Clause.cons_induction generalizing n with
  | nil => simp [Clause.chains_eq, ofClause]
  | cons t rest ihnested ihrest =>
    have hterm : (ofTerm t).depth ≤ n ↔ ∀ chain ∈ t.chains, chain.length ≤ n := by
      rw [ofTerm_eq, Term.chains_eq, List.forall_mem_cons, List.forall_mem_map]
      cases n with
      | zero => simp [under]
      | succ n => simp [under, ihnested]
    rw [depth_cons, max_le_iff, hterm, ihrest, Clause.chains_cons, List.forall_mem_append]

/-- The depth of a tree is the length of its longest chain, and zero if it has none. -/
theorem depth_ofClause (clause : Clause) :
    (ofClause clause).depth = (clause.chains.map List.length).foldr max 0 := by
  apply eq_of_forall_ge_iff
  intro n
  rw [depth_ofClause_le_iff]
  induction clause.chains with
  | nil => simp
  | cons chain rest ih => rw [List.forall_mem_cons, List.map_cons, List.foldr_cons, max_le_iff, ih]

theorem depth_combined (clause : Clause) :
    (ofClause (Clause.combined clause)).depth = (ofClause clause).depth := by
  apply eq_of_forall_ge_iff
  intro n
  rw [depth_ofClause_le_iff, depth_ofClause_le_iff]
  exact forall_congr' fun chain => imp_congr_left Clause.mem_chains_combined

theorem terms_combined (clause : Clause) :
    (ofClause (Clause.combined clause)).terms = clause.chains.toFinset.card := by
  have hnodup := Clause.nodup_chains (Clause.pathsDifferThroughout_combined clause)
  have hsame : (Clause.combined clause).chains.toFinset = clause.chains.toFinset := by
    ext chain
    rw [List.mem_toFinset, List.mem_toFinset, Clause.mem_chains_combined]
  rw [terms_ofClause, ← hsame, List.toFinset_card_of_nodup hnodup]

end Summary

/-- Combining keeps the chains of a tree and makes each of them occur once: the depth stays, and
the terms that are left count the distinct chains. Before, the summary counts every occurrence of a
chain and measures the longest one. -/
theorem Clause.summary_combined (clause : Clause) :
    (∀ chain, chain ∈ chains (combined clause) ↔ chain ∈ clause.chains) ∧
      Summary.ofClause (combined clause) =
        ⟨clause.chains.toFinset.card, (Summary.ofClause clause).depth⟩ ∧
      Summary.ofClause clause =
        ⟨clause.chains.length, (clause.chains.map List.length).foldr max 0⟩ := by
  refine ⟨fun _ => mem_chains_combined, ?_, ?_⟩
  · rw [← Summary.terms_combined, ← Summary.depth_combined]
  · rw [← Summary.terms_ofClause, ← Summary.depth_ofClause]

end ExpandTree
