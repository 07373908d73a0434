import ExpandTree.Proofs.Chains
import ExpandTree.Proofs.Inversion
import ExpandTree.Record
import Mathlib.Data.Set.List

/-!
Accounts of a normalization. Every term of a tree is recorded once when its path is turned around,
in the order in which the tree is written. Every merge is recorded once and makes one term out of
two, so the merges on record make up for the terms that are gone.
-/
namespace ExpandTree

open Text

def Token.term? : Token → Option Term
  | .term t => some t
  | _ => none

/-- The terms of a tree at every depth, each before those of its nested clause. -/
def Clause.allTerms (clause : Clause) : List Term := (treeTokens clause).filterMap Token.term?

section Terms

theorem Token.term?_eq_none {token : Token} (h : token.nests = false) : token.term? = none := by
  cases token <;> first | rfl | cases h

theorem Modifiers.filterMap_term?_tokens (m : Modifiers) (select : Option Select) :
    (m.tokens select).filterMap Token.term? = [] :=
  List.filterMap_eq_nil_iff.mpr fun token htoken =>
    Token.term?_eq_none (m.tokens_do_not_nest select token htoken)

theorem Clause.filterMap_term?_tokensOfAll (clause : Clause) :
    (Term.tokensOfAll clause).filterMap Token.term? = clause.allTerms := rfl

theorem Term.filterMap_term?_tokens (t : Term) :
    t.tokens.filterMap Token.term? = t :: t.nested.allTerms := by
  obtain ⟨path, m, select, expand⟩ := t
  cases expand with
  | none =>
    have htokens := m.filterMap_term?_tokens select
    rw [tokens, List.filterMap_cons, List.filterMap_cons, htokens]
    rfl
  | some terms =>
    have htokens := m.filterMap_term?_tokens select
    rw [tokens, List.filterMap_cons, List.filterMap_cons, List.filterMap_append, htokens]
    rfl

theorem Term.nested_inverted (t : Term) : t.inverted.nested = t.nested.inverted := by
  rw [inverted_eq, nested, nested]
  cases t.expand <;> rfl

namespace Clause

theorem allTerms_cons (t : Term) (rest : Clause) :
    allTerms (t :: rest) = t :: (t.nested.allTerms ++ rest.allTerms) := by
  rw [← filterMap_term?_tokensOfAll, Term.tokensOfAll, List.filterMap_append,
    Term.filterMap_term?_tokens, filterMap_term?_tokensOfAll, List.cons_append]

/-- An inversion turns every term of the tree around where it stands. -/
theorem allTerms_inverted (clause : Clause) :
    clause.inverted.allTerms = clause.allTerms.map Term.inverted := by
  induction clause using cons_induction with
  | nil => rfl
  | cons t rest ihnested ihrest =>
    rw [inverted_eq] at ihrest ⊢
    rw [List.map_cons, allTerms_cons, allTerms_cons, Term.nested_inverted, ihnested, ihrest,
      List.map_cons, List.map_append]

end Clause

end Terms

namespace Summary

theorem terms_cons (t : Term) (rest : Clause) :
    (ofClause (t :: rest)).terms =
      (ofClause t.nested).terms + 1 + (ofClause rest).terms := by
  rw [ofClause, beside, ofTerm_eq, under]

theorem terms_append (a b : Clause) :
    (ofClause (a ++ b)).terms = (ofClause a).terms + (ofClause b).terms := by
  rw [terms_ofClause, terms_ofClause, terms_ofClause, Clause.chains_append, List.length_append]

/-- The summary counts the terms that the tree holds. -/
theorem length_allTerms (clause : Clause) :
    clause.allTerms.length = (ofClause clause).terms := by
  induction clause using Clause.cons_induction with
  | nil => rfl
  | cons t rest ihnested ihrest =>
    rw [Clause.allTerms_cons, List.length_cons, List.length_append, terms_cons, ihnested, ihrest]
    omega

theorem terms_inverted (clause : Clause) :
    (ofClause clause.inverted).terms = (ofClause clause).terms := by
  rw [← length_allTerms, Clause.allTerms_inverted, List.length_map, length_allTerms]

end Summary

section Inversion

/-- One record for each term of the tree, in the order of the terms. -/
theorem inversionRecordsOfAll_eq (clause : Clause) :
    Term.inversionRecordsOfAll clause =
      clause.allTerms.map fun t => .inverted t.path.reversed := by
  induction clause using Clause.cons_induction with
  | nil => rfl
  | cons t rest ihnested ihrest =>
    have hterm : t.inversionRecords =
        .inverted t.path.reversed :: Term.inversionRecordsOfAll t.nested := by
      obtain ⟨path, m, select, expand⟩ := t
      cases expand <;> rfl
    rw [Term.inversionRecordsOfAll, hterm, ihnested, ihrest, Clause.allTerms_cons, List.map_cons,
      List.map_append, List.cons_append]

/-- The paths on record are those that the inverted tree has. -/
theorem Clause.normalizingRecords_eq (clause : Clause) :
    clause.normalizingRecords =
      .normalizing clause.length ::
        (clause.inverted.allTerms.map (fun t => .inverted t.path) ++
          clause.inverted.combiningRecords) := by
  rw [normalizingRecords, inversionRecordsOfAll_eq, allTerms_inverted, List.map_map]
  refine congrArg (fun records => _ :: (records ++ _)) (List.map_congr_left fun t _ => ?_)
  rw [Function.comp_apply, Term.inverted_path]

end Inversion

namespace Clause

section Conservation

open Summary

/-- A term that is merged into another is recorded, and counts no longer. -/
theorem terms_insert (t : Term) (clause : Clause) :
    (clause.find? (·.path.samePath t.path)).toList.length + (ofClause (insert t clause)).terms =
      (ofClause clause).terms + ((ofClause t.nested).terms + 1) := by
  induction clause with
  | nil =>
    rw [insert, terms_cons, Nat.add_comm (ofClause []).terms]
    exact Nat.zero_add _
  | cons first rest ih =>
    rw [insert]
    by_cases hsame : first.path.samePath t.path = true
    · have hfind : List.find? (·.path.samePath t.path) (first :: rest) = some first :=
        List.find?_cons_of_pos hsame
      rw [hfind, if_pos hsame, terms_cons, terms_cons, Term.nested_merge, terms_append,
        Option.toList_some, List.length_singleton]
      omega
    · have hfind : List.find? (·.path.samePath t.path) (first :: rest) =
          rest.find? (·.path.samePath t.path) := List.find?_cons_of_neg hsame
      rw [hfind, if_neg hsame, terms_cons, terms_cons]
      omega

/-- A term is put on record as merged exactly if there is one that it merges into. -/
theorem mergeRecordsInto_cons (t : Term) (terms rest : Clause) :
    mergeRecordsInto terms (t :: rest) =
      ((terms.find? (·.path.samePath t.path)).map fun first => .merged first.path).toList ++
        mergeRecordsInto (insert t terms) rest := by
  rw [mergeRecordsInto]
  cases terms.find? (·.path.samePath t.path) <;> rfl

theorem length_mergeRecordsInto (terms clause : Clause) :
    (mergeRecordsInto terms clause).length + (ofClause (absorb terms clause)).terms =
      (ofClause terms).terms + (ofClause clause).terms := by
  induction clause generalizing terms with
  | nil => exact Nat.zero_add _
  | cons t rest ih =>
    have hmerge : ((terms.find? (·.path.samePath t.path)).map
        fun first => Record.merged first.path).toList.length =
          (terms.find? (·.path.samePath t.path)).toList.length := by
      rw [Option.length_toList, Option.length_toList, Option.isSome_map]
    have habsorb : absorb terms (t :: rest) = absorb (insert t terms) rest := rfl
    have hrest := ih (insert t terms)
    have hinsert := terms_insert t terms
    rw [mergeRecordsInto_cons, List.length_append, hmerge, habsorb, terms_cons]
    omega

/-- What keeps count of the nested clauses keeps count of the clause above them. -/
theorem length_flatMap_nested {f : Clause → Clause} {records : Clause → List Record}
    (h : ∀ c, (records c).length + (ofClause (f c)).terms = (ofClause c).terms) (clause : Clause) :
    (clause.flatMap fun t => (t.expand.map records).getD []).length +
      (ofClause (clause.map (Term.mapExpand f))).terms = (ofClause clause).terms := by
  induction clause with
  | nil => rfl
  | cons t rest ih =>
    have hnested : ((t.expand.map records).getD []).length +
        (ofClause (t.mapExpand f).nested).terms = (ofClause t.nested).terms := by
      obtain ⟨path, m, select, expand⟩ := t
      cases expand with
      | none => rfl
      | some terms => exact h terms
    rw [List.flatMap_cons, List.length_append, List.map_cons, terms_cons, terms_cons]
    omega

/-- The merges on record and the terms that are left make up for the terms there were. -/
theorem length_combiningRecordsTo (levels : Nat) (clause : Clause) :
    (combiningRecordsTo levels clause).length + (ofClause (combinedTo levels clause)).terms =
      (ofClause clause).terms := by
  induction levels generalizing clause with
  | zero => exact Nat.zero_add _
  | succ n ih =>
    have hclause := length_mergeRecordsInto [] clause
    have hbelow := length_flatMap_nested ih (merged clause)
    have hmerged : absorb [] clause = merged clause := rfl
    have hnone : (ofClause []).terms = 0 := rfl
    rw [combiningRecordsTo, combinedTo, mergeRecords, List.length_append]
    rw [hmerged, hnone] at hclause
    omega

end Conservation

theorem mem_mergeRecordsInto {terms clause : Clause} {r : Record}
    (h : r ∈ mergeRecordsInto terms clause) : ∃ path, r = .merged path := by
  induction clause generalizing terms with
  | nil => cases h
  | cons t rest ih =>
    rw [mergeRecordsInto_cons, List.mem_append, Option.mem_toList] at h
    rcases h with h | h
    · obtain ⟨first, -, rfl⟩ := Option.map_eq_some_iff.mp h
      exact ⟨first.path, rfl⟩
    · exact ih h

theorem mem_combiningRecordsTo {levels : Nat} {clause : Clause} {r : Record}
    (h : r ∈ combiningRecordsTo levels clause) : ∃ path, r = .merged path := by
  induction levels generalizing clause with
  | zero => cases h
  | succ n ih =>
    rw [combiningRecordsTo, List.mem_append, List.mem_flatMap] at h
    rcases h with h | ⟨t, -, h⟩
    · exact mem_mergeRecordsInto h
    · cases hterms : t.expand with
      | none =>
        rw [hterms] at h
        cases h
      | some terms =>
        rw [hterms] at h
        exact ih h

/-- The account of a normalization: first the number of terms at the top, then the reversed path of
each term of the tree in order, then as many merges as there are fewer terms in the end. -/
theorem normalizingRecords_account (clause : Clause) :
    ∃ merges : List Path,
      clause.normalizingRecords.map (fun r => (r.level, r.message)) =
          (.debug, "normalizing expand clause with ".toList ++ natText clause.length ++
              " term(s)".toList) ::
            (clause.allTerms.map (fun t =>
                (.trace, "inverted expand path to '".toList ++ t.path.reversed.display ++
                  ['\x27'])) ++
              merges.map fun path =>
                (.debug, "combining duplicate expand term '".toList ++ path.display ++
                  ['\x27'])) ∧
        clause.allTerms.length = (Summary.ofClause clause).terms ∧
        merges.length + (Summary.ofClause clause.normalized).terms =
          (Summary.ofClause clause).terms := by
  have hmerged : ∀ r ∈ clause.inverted.combiningRecords, r ∈ Set.range Record.merged := by
    intro r hr
    obtain ⟨path, rfl⟩ := mem_combiningRecordsTo hr
    exact ⟨path, rfl⟩
  obtain ⟨merges, hmerges⟩ : clause.inverted.combiningRecords ∈ Set.range (List.map .merged) := by
    rw [Set.range_list_map]
    exact hmerged
  refine ⟨merges, ?_, Summary.length_allTerms clause, ?_⟩
  · rw [normalizingRecords, ← hmerges, inversionRecordsOfAll_eq, List.map_cons, List.map_append,
      List.map_map, List.map_map]
    rfl
  · have hcount : clause.inverted.combiningRecords.length +
        (Summary.ofClause clause.inverted.combined).terms =
          (Summary.ofClause clause.inverted).terms := length_combiningRecordsTo _ _
    rw [← hmerges, List.length_map, Summary.terms_inverted] at hcount
    exact hcount

end Clause

end ExpandTree
