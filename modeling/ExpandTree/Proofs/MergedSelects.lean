import ExpandTree.Proofs.Chains
import ExpandTree.Proofs.Grouping

/-!
Selects of merged terms. The term at the end of a chain of a combined tree is gathered from all
terms at the end of that chain, at whatever place they stood before. An item of a later select is
kept only if it equals none before it. The items of the first select are all kept, so a gathered
select repeats an item exactly when the first one does.
-/
namespace ExpandTree

namespace Clause

/-- The terms of a clause whose path has these identifiers. -/
def named (identifiers : List String) (clause : Clause) : Clause :=
  clause.filter (·.path.identifiers = identifiers)

/-- The terms at the end of a chain. -/
def termsAt : Clause → Chain → Clause
  | _, [] => []
  | clause, [identifiers] => clause.named identifiers
  | clause, identifiers :: next :: rest =>
      termsAt ((clause.named identifiers).flatMap Term.nested) (next :: rest)

theorem named_flatMap {α : Type} (identifiers : List String) (f : α → Clause) (as : List α) :
    named identifiers (as.flatMap f) = as.flatMap fun a => named identifiers (f a) :=
  List.filter_flatMap ..

theorem termsAt_flatMap {α : Type} (f : α → Clause) (as : List α) (chain : Chain) :
    termsAt (as.flatMap f) chain = as.flatMap fun a => termsAt (f a) chain := by
  induction chain generalizing f with
  | nil => simp [termsAt]
  | cons identifiers rest ih =>
    cases rest with
    | nil => exact named_flatMap identifiers f as
    | cons next rest => simp only [termsAt, named_flatMap, List.flatMap_assoc, ih]

theorem mem_named {identifiers : List String} {clause : Clause} {t : Term} :
    t ∈ clause.named identifiers ↔ t ∈ clause ∧ t.path.identifiers = identifiers := by
  simp [named]

/-- At the end of a chain there is a term of the clause, or one further down in a term of it. -/
theorem mem_termsAt_cons {clause : Clause} {identifiers : List String} {rest : Chain} {t : Term} :
    t ∈ clause.termsAt (identifiers :: rest) ↔
      (rest = [] ∧ t ∈ clause ∧ t.path.identifiers = identifiers) ∨
        ∃ u ∈ clause, u.path.identifiers = identifiers ∧ t ∈ u.nested.termsAt rest := by
  cases rest with
  | nil => simp [termsAt, mem_named]
  | cons next rest => simp [termsAt, termsAt_flatMap, List.mem_flatMap, mem_named, and_assoc]

end Clause

theorem Term.term_mem_tokens {t u : Term} :
    Token.term u ∈ t.tokens ↔ u = t ∨ Token.term u ∈ treeTokens t.nested := by
  obtain ⟨path, m, select, expand⟩ := t
  have hm : Token.term u ∉ m.tokens select := fun h => by
    cases m.tokens_do_not_nest select _ h
  cases expand with
  | none => simp [tokens, hm, nested, treeTokens, tokensOfAll]
  | some terms => simp [tokens, hm, nested, treeTokens]

namespace Clause

theorem term_mem_treeTokens {clause : Clause} {t : Term} :
    Token.term t ∈ treeTokens clause ↔
      ∃ u ∈ clause, t = u ∨ Token.term t ∈ treeTokens u.nested := by
  rw [treeTokens, Term.tokensOfAll_eq, List.mem_cons, List.mem_flatMap]
  simp only [Term.term_mem_tokens, reduceCtorEq, false_or]

/-- The terms of a tree, at every depth, are those at the end of a chain. -/
theorem term_mem_treeTokens_iff {clause : Clause} {t : Term} :
    Token.term t ∈ treeTokens clause ↔ ∃ chain, t ∈ clause.termsAt chain := by
  constructor
  · intro h
    induction clause using Clause.induction with
    | clause clause ih =>
      obtain ⟨u, hu, rfl | hnested⟩ := term_mem_treeTokens.mp h
      · exact ⟨[t.path.identifiers], mem_termsAt_cons.mpr (Or.inl ⟨rfl, hu, rfl⟩)⟩
      · obtain ⟨chain, hchain⟩ := ih u hu hnested
        exact ⟨u.path.identifiers :: chain, mem_termsAt_cons.mpr (Or.inr ⟨u, hu, rfl, hchain⟩)⟩
  · rintro ⟨chain, hchain⟩
    induction chain generalizing clause with
    | nil => cases hchain
    | cons identifiers rest ih =>
      obtain ⟨-, ht, -⟩ | ⟨u, hu, -, hrest⟩ := mem_termsAt_cons.mp hchain
      · exact term_mem_treeTokens.mpr ⟨t, ht, Or.inl rfl⟩
      · exact term_mem_treeTokens.mpr ⟨u, hu, Or.inr (ih hrest)⟩

/-- The terms that merge into one are those of one path. -/
theorem named_combined (identifiers : List String) (clause : Clause) :
    (combined clause).named identifiers = combined (clause.named identifiers) := by
  have hmerged := @merged_filter (fun p => p.identifiers = identifiers)
    (fun p q hpq => by rw [(Path.samePath_iff p q).mp hpq]) clause
  rw [combined_eq, combined_eq, named, List.filter_map]
  exact congrArg (List.map (Term.mapExpand combined)) hmerged.symm

theorem combined_named (identifiers : List String) (clause : Clause) :
    combined (clause.named identifiers) = (gathered (clause.named identifiers)).toList := by
  have hsame : ∀ t ∈ clause.named identifiers, t.path.identifiers = identifiers :=
    fun t ht => (mem_named.mp ht).2
  cases hclause : clause.named identifiers with
  | nil => rfl
  | cons first later =>
    rw [hclause] at hsame
    obtain ⟨hfirst, hlater⟩ := List.forall_mem_cons.mp hsame
    have hon : ∀ t ∈ later, first.path.samePath t.path = true := fun t ht =>
      (Path.samePath_iff _ _).mpr (hfirst.trans (hlater t ht).symm)
    have honPath : onPath first.path later = later := List.filter_eq_self.mpr hon
    have hoffPath : offPath first.path later = [] := by
      rw [offPath, List.filter_eq_nil_iff]
      exact fun t ht => by simp [hon t ht]
    rw [combined_eq, merged_cons, honPath, hoffPath, Term.gathered_cons]
    rfl

end Clause

namespace Term

theorem nested_foldl_merge (first : Term) (later : Clause) :
    (later.foldl merge first).nested = (first :: later).flatMap nested := by
  induction later generalizing first with
  | nil => exact (List.append_nil _).symm
  | cons next rest ih =>
    rw [List.foldl_cons, ih, List.flatMap_cons, nested_merge, List.append_assoc]
    rfl

/-- Nested clauses are gathered into one that is combined. -/
theorem flatMap_nested_gathered (terms : Clause) :
    (gathered terms).toList.flatMap nested = Clause.combined (terms.flatMap nested) := by
  cases terms with
  | nil => rfl
  | cons first later =>
    rw [gathered_cons, Option.toList_some, List.flatMap_singleton,
      nested_mapExpand Clause.piecewise_combined.nil, nested_foldl_merge]

end Term

namespace Clause

/-- Combining gathers what stands at the end of a chain into one term. -/
theorem termsAt_combined (clause : Clause) (chain : Chain) :
    termsAt (combined clause) chain = (gathered (clause.termsAt chain)).toList := by
  induction chain generalizing clause with
  | nil => rfl
  | cons identifiers rest ih =>
    cases rest with
    | nil => rw [termsAt, termsAt, named_combined, combined_named]
    | cons next rest =>
      rw [termsAt, termsAt, named_combined, combined_named, Term.flatMap_nested_gathered, ih]

end Clause

/-- No two items at different places are equal. -/
def Select.Distinct (select : Select) : Prop := select.Pairwise fun a b => (a == b) = false

instance (select : Select) : Decidable select.Distinct :=
  inferInstanceAs (Decidable (select.Pairwise fun a b => (a == b) = false))

theorem Select.distinct_concat {select : Select} {item : SelectItem}
    (h : ¬select.contains item = true) : Distinct (select ++ [item]) ↔ select.Distinct := by
  have hnew : ∀ a ∈ select, (a == item) = false := by
    simpa [List.contains_iff_exists_mem_beq, BEq.comm] using h
  rw [Distinct, List.pairwise_append]
  refine ⟨fun hall => hall.1, fun hselect => ⟨hselect, List.pairwise_singleton _ _, ?_⟩⟩
  intro a ha b hb
  rw [List.mem_singleton.mp hb]
  exact hnew a ha

/-- A union repeats an item exactly when its first list does. -/
theorem Select.distinct_unite {first second : Select} :
    Distinct (unite first second) ↔ first.Distinct := by
  induction second generalizing first with
  | nil => rfl
  | cons item rest ih =>
    rw [unite, ih]
    split
    · rfl
    · rename_i hnew
      exact distinct_concat hnew

theorem select_gathered {terms : Clause} {t : Term} (h : gathered terms = some t) :
    t.select = gatheredSelect (terms.filterMap Term.select) := by
  cases terms with
  | nil => cases h
  | cons first later =>
    rw [gathered] at h
    cases h
    rfl

namespace Clause

/-- Each term of a combined tree, at whatever depth, stands alone at the end of its chain and is
gathered from the terms that stood there before. If at least two of these have a select, the one
that is gathered repeats an item exactly when the first of theirs does. -/
theorem combined_select_distinct_iff (clause : Clause) :
    (∀ t, Token.term t ∈ treeTokens (combined clause) ↔
        ∃ chain, t ∈ termsAt (combined clause) chain) ∧
      ∀ chain t, t ∈ termsAt (combined clause) chain →
        termsAt (combined clause) chain = [t] ∧ gathered (clause.termsAt chain) = some t ∧
          ∀ first second later,
            (clause.termsAt chain).filterMap Term.select = first :: second :: later →
              ∃ select, t.select = some select ∧
                (Select.Distinct select ↔ Select.Distinct first) := by
  refine ⟨fun t => term_mem_treeTokens_iff, fun chain t ht => ?_⟩
  rw [termsAt_combined, Option.mem_toList] at ht
  have halone : termsAt (combined clause) chain = [t] := by
    rw [termsAt_combined, ht, Option.toList_some]
  refine ⟨halone, ht, fun first second later hselects => ?_⟩
  have hselect : t.select = some (unite first (second :: later).flatten) := by
    rw [select_gathered ht, hselects, gatheredSelect, unite_eq]
  exact ⟨_, hselect, Select.distinct_unite⟩

def orders (select : Select) (expand : Option Clause) : Term :=
  ⟨.last ⟨"Orders", .model, none⟩, {}, some select, expand⟩

def idItem : SelectItem := ⟨.last ⟨"Id", .model, none⟩, none⟩

def nameItem : SelectItem := ⟨.last ⟨"Name", .model, none⟩, none⟩

/-- Three selects of one path, the second with a repetition, one of them two levels down. -/
def nestedSelects : Clause :=
  [orders [idItem] (some [orders [nameItem] none]),
   orders [idItem, nameItem, idItem] (some [orders [idItem, idItem] none])]

/-- Two selects of one path, the first with a repetition. -/
def repeatedSelects : Clause := [orders [idItem, idItem] none, orders [nameItem] none]

theorem combined_select_distinct_nestedSelects :
    orders [nameItem, idItem] none ∈ termsAt (combined nestedSelects) [["Orders"], ["Orders"]] ∧
      (nestedSelects.termsAt [["Orders"], ["Orders"]]).filterMap Term.select =
        [[nameItem], [idItem, idItem]] ∧
      ∃ select, (orders [nameItem, idItem] none).select = some select ∧
        (Select.Distinct select ↔ Select.Distinct [nameItem]) := by
  have hmem : orders [nameItem, idItem] none ∈
      termsAt (combined nestedSelects) [["Orders"], ["Orders"]] := List.mem_singleton.mpr rfl
  have hselects : (nestedSelects.termsAt [["Orders"], ["Orders"]]).filterMap Term.select =
      [[nameItem], [idItem, idItem]] := rfl
  obtain ⟨-, -, hdistinct⟩ := (combined_select_distinct_iff nestedSelects).2 _ _ hmem
  exact ⟨hmem, hselects, hdistinct _ _ _ hselects⟩

/-- The repetition of the first select stays. -/
theorem combined_repeatedSelects :
    (repeatedSelects.termsAt [["Orders"]]).filterMap Term.select =
        [[idItem, idItem], [nameItem]] ∧
      combined repeatedSelects = [orders [idItem, idItem, nameItem] none] ∧
      ¬Select.Distinct [idItem, idItem, nameItem] :=
  ⟨rfl, rfl, by decide⟩

end Clause

end ExpandTree
