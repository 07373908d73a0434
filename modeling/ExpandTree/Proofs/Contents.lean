import ExpandTree.Proofs.Equality
import ExpandTree.Token
import Mathlib.Data.Option.Basic

/-!
What a tree holds: the paths of its terms and select items, and the literals of its expressions and
keys, at every level. Both are read off the tokens, so a fact about all of them is a fact about all
tokens, and that splits along the parts of a tree.
-/
namespace ExpandTree

def Segment.literals (s : Segment) : List Literal := (s.keys.getD []).map KeyValue.value

def Path.literals (p : Path) : List Literal := p.segments.flatMap Segment.literals

namespace Token

def paths : Token → List Path
  | .path p => [p]
  | _ => []

/-- The literals of a token itself; those of its children are not counted. -/
def literals : Token → List Literal
  | .expr (.literal l) => [l]
  | .path p => p.literals
  | _ => []

/-- Whether a token is a clause or one of its terms. -/
def nests : Token → Bool
  | .clause _ => true
  | .term _ => true
  | _ => false

def NaNFree (token : Token) : Prop := ∀ l ∈ token.literals, l.isNaN = false

end Token

def SelectItem.paths (item : SelectItem) : List Path := item.tokens.flatMap Token.paths

def Term.paths (t : Term) : List Path := t.tokens.flatMap Token.paths

namespace Clause

def paths (clause : Clause) : List Path := (treeTokens clause).flatMap Token.paths

def literals (clause : Clause) : List Literal := (treeTokens clause).flatMap Token.literals

end Clause

theorem forall_mem_getD_iff {α : Type} {o : Option (List α)} {P : α → Prop} :
    (∀ a ∈ o.getD [], P a) ↔ ∀ as ∈ o, ∀ a ∈ as, P a := by
  cases o <;> simp

section Tokens

variable {P : Token → Prop}

namespace Expr

theorem tokensOfAll_eq (es : List Expr) : tokensOfAll es = es.flatMap tokens :=
  eq_flatMap_of_cons rfl (fun _ _ => rfl) es

theorem tokensOfAggregations_eq (items : List Aggregation) :
    tokensOfAggregations items = items.flatMap fun item => item.expression.tokens :=
  eq_flatMap_of_cons rfl (fun ⟨_, _, _⟩ _ => rfl) items

/-- The expressions right below an expression. -/
def operands : Expr → List Expr
  | .member parent _ => [parent]
  | .binary _ left right => [left, right]
  | .unary _ operand => [operand]
  | .call _ arguments => arguments
  | .aggregate items => items.map Aggregation.expression
  | .groupBy properties => properties
  | .groupByThen properties child => properties ++ [child]
  | .literal _ | .property _ | .star | .search _ => []

theorem tokens_eq (e : Expr) : e.tokens = .expr e :: e.operands.flatMap tokens := by
  cases e <;> simp [tokens, operands, tokensOfAll_eq, tokensOfAggregations_eq, List.flatMap_map]

theorem forall_tokens_iff {e : Expr} :
    (∀ token ∈ e.tokens, P token) ↔
      P (.expr e) ∧ ∀ operand ∈ e.operands, ∀ token ∈ operand.tokens, P token := by
  rw [tokens_eq, List.forall_mem_cons, List.forall_mem_flatMap]

theorem operands_induction {motive : Expr → Prop}
    (expr : ∀ e : Expr, (∀ operand ∈ e.operands, motive operand) → motive e) (e : Expr) :
    motive e := by
  induction e using Expr.induction with
  | literal | property | star | search =>
    exact expr _ fun _ h => absurd h List.not_mem_nil
  | member _ _ ih | unary _ _ ih => exact expr _ (List.forall_mem_singleton.mpr ih)
  | binary _ _ _ ihl ihr =>
    exact expr _ (List.forall_mem_cons.mpr ⟨ihl, List.forall_mem_singleton.mpr ihr⟩)
  | call _ _ ih | groupBy _ ih => exact expr _ ih
  | aggregate _ ih => exact expr _ (List.forall_mem_map.mpr ih)
  | groupByThen _ _ ih ihc =>
    exact expr _ (List.forall_mem_append.mpr ⟨ih, List.forall_mem_singleton.mpr ihc⟩)

/-- All tokens of an expression are expressions. -/
theorem tokens_are_exprs (e : Expr) : ∀ token ∈ e.tokens, ∃ e', token = .expr e' := by
  induction e using operands_induction with
  | expr e ih => exact forall_tokens_iff.mpr ⟨⟨e, rfl⟩, ih⟩

end Expr

namespace SelectItem

theorem tokensOfAll_eq (items : List SelectItem) : tokensOfAll items = items.flatMap tokens :=
  eq_flatMap_of_cons rfl (fun _ _ => rfl) items

theorem forall_tokens_iff {path : Path} {select : Option Select} :
    (∀ token ∈ tokens ⟨path, select⟩, P token) ↔
      P (.selectItem ⟨path, select⟩) ∧ P (.path path) ∧
        ∀ items ∈ select, P (.select items) ∧ ∀ item ∈ items, ∀ token ∈ item.tokens, P token := by
  cases select with
  | none => simp [tokens]
  | some items =>
    simp only [tokens, tokensOfAll_eq, List.forall_mem_cons, List.forall_mem_flatMap,
      Option.mem_some_iff, forall_eq']

end SelectItem

namespace Term

theorem tokensOfAll_eq (terms : List Term) : tokensOfAll terms = terms.flatMap tokens :=
  eq_flatMap_of_cons rfl (fun _ _ => rfl) terms

theorem forall_tokens_iff {path : Path} {m : Modifiers} {select : Option Select}
    {expand : Option Clause} :
    (∀ token ∈ tokens ⟨path, m, select, expand⟩, P token) ↔
      P (.term ⟨path, m, select, expand⟩) ∧ P (.path path) ∧ (∀ token ∈ m.tokens select, P token) ∧
        ∀ terms ∈ expand, P (.clause terms) ∧ ∀ t ∈ terms, ∀ token ∈ t.tokens, P token := by
  cases expand with
  | none => simp [tokens]
  | some terms =>
    simp only [tokens, tokensOfAll_eq, List.forall_mem_cons, List.forall_mem_append,
      List.forall_mem_flatMap, Option.mem_some_iff, forall_eq']

end Term

theorem Modifiers.forall_tokens_iff {m : Modifiers} {select : Option Select} :
    (∀ token ∈ m.tokens select, P token) ↔
      (∀ e ∈ m.filter, ∀ token ∈ e.tokens, P token) ∧
      (∀ items ∈ m.orderBy, ∀ item ∈ items, P (.orderItem item) ∧
        ∀ token ∈ item.expression.tokens, P token) ∧
      (∀ e ∈ m.search, ∀ token ∈ e.tokens, P token) ∧
      (∀ items ∈ select, P (.select items) ∧ ∀ item ∈ items, ∀ token ∈ item.tokens, P token) ∧
      (∀ items ∈ m.compute, P (.compute items) ∧ ∀ c ∈ items, P (.computed c) ∧
        ∀ token ∈ c.expression.tokens, P token) ∧
      (∀ steps ∈ m.apply, ∀ e ∈ steps, ∀ token ∈ e.tokens, P token) := by
  simp only [tokens, OrderItem.tokens, Computed.tokens, Expr.tokensOfAll_eq,
    SelectItem.tokensOfAll_eq, List.forall_mem_append, List.forall_mem_cons,
    List.forall_mem_flatMap, forall_mem_getD_iff, Option.forall_mem_map, and_assoc]

theorem forall_treeTokens_iff {clause : Clause} :
    (∀ token ∈ treeTokens clause, P token) ↔
      P (.clause clause) ∧ ∀ t ∈ clause, ∀ token ∈ t.tokens, P token := by
  rw [treeTokens, Term.tokensOfAll_eq, List.forall_mem_cons, List.forall_mem_flatMap]

theorem SelectItem.tokens_do_not_nest (item : SelectItem) :
    ∀ token ∈ item.tokens, token.nests = false := by
  induction item using SelectItem.induction with
  | item path select ih =>
    rw [forall_tokens_iff]
    exact ⟨rfl, rfl, fun items hitems => ⟨rfl, ih items hitems⟩⟩

/-- Clauses and terms stand in terms only, not in their expressions or selects. -/
theorem Modifiers.tokens_do_not_nest (m : Modifiers) (select : Option Select) :
    ∀ token ∈ m.tokens select, token.nests = false := by
  have hexpr : ∀ e : Expr, ∀ token ∈ e.tokens, token.nests = false := by
    intro e token htoken
    obtain ⟨e', rfl⟩ := e.tokens_are_exprs token htoken
    rfl
  rw [forall_tokens_iff]
  exact ⟨fun e _ => hexpr e, fun items _ item _ => ⟨rfl, hexpr item.expression⟩,
    fun e _ => hexpr e, fun items _ => ⟨rfl, fun item _ => item.tokens_do_not_nest⟩,
    fun items _ => ⟨rfl, fun c _ => ⟨rfl, hexpr c.expression⟩⟩, fun steps _ e _ => hexpr e⟩

/-- What holds of all tokens of a term holds of those of every term in it, at whatever depth. -/
theorem Term.forall_tokens_of_mem {t : Term} (h : ∀ token ∈ t.tokens, P token) :
    ∀ token ∈ t.tokens, ∀ u, token = .term u → ∀ token ∈ u.tokens, P token := by
  induction t using Term.induction with
  | term path m select expand ih =>
    obtain ⟨-, -, -, hexpand⟩ := forall_tokens_iff.mp h
    refine forall_tokens_iff.mpr ⟨?_, nofun, ?_, fun terms hterms => ⟨nofun, fun t ht => ?_⟩⟩
    · rintro u ⟨rfl⟩
      exact h
    · rintro token htoken u rfl
      cases m.tokens_do_not_nest select _ htoken
    · exact ih terms hterms t ht ((hexpand terms hterms).2 t ht)

theorem forall_tokens_of_mem_treeTokens {clause : Clause} {u : Term}
    (h : ∀ token ∈ treeTokens clause, P token) (hu : .term u ∈ treeTokens clause) :
    ∀ token ∈ u.tokens, P token := by
  obtain ⟨-, hterms⟩ := forall_treeTokens_iff.mp h
  rw [treeTokens, Term.tokensOfAll_eq, List.mem_cons, List.mem_flatMap] at hu
  obtain hclause | ⟨t, ht, hu⟩ := hu
  · cases hclause
  · exact Term.forall_tokens_of_mem (hterms t ht) _ hu u rfl

end Tokens

theorem Token.mem_paths_iff {token : Token} {p : Path} : p ∈ token.paths ↔ token = .path p := by
  cases token <;> simp [paths, eq_comm]

section Paths

variable {P : Path → Prop}

theorem SelectItem.forall_paths_iff {path : Path} {select : Option Select} :
    (∀ p ∈ paths ⟨path, select⟩, P p) ↔
      P path ∧ ∀ items ∈ select, ∀ item ∈ items, ∀ p ∈ item.paths, P p := by
  simp only [paths, List.forall_mem_flatMap, Token.mem_paths_iff, forall_tokens_iff]
  simp

theorem Term.forall_paths_iff {path : Path} {m : Modifiers} {select : Option Select}
    {expand : Option Clause} :
    (∀ p ∈ paths ⟨path, m, select, expand⟩, P p) ↔
      P path ∧ (∀ items ∈ select, ∀ item ∈ items, ∀ p ∈ item.paths, P p) ∧
        ∀ terms ∈ expand, ∀ t ∈ terms, ∀ p ∈ t.paths, P p := by
  have hexpr : ∀ e : Expr, (∀ token ∈ e.tokens, ∀ p, token = .path p → P p) ↔ True := by
    intro e
    refine iff_true_intro fun token htoken p hp => ?_
    obtain ⟨e', he⟩ := e.tokens_are_exprs token htoken
    cases hp.symm.trans he
  simp only [paths, SelectItem.paths, List.forall_mem_flatMap, Token.mem_paths_iff,
    forall_tokens_iff, Modifiers.forall_tokens_iff]
  simp [hexpr]

theorem Clause.forall_paths_iff {clause : Clause} :
    (∀ p ∈ clause.paths, P p) ↔ ∀ t ∈ clause, ∀ p ∈ t.paths, P p := by
  simp only [paths, Term.paths, List.forall_mem_flatMap, Token.mem_paths_iff,
    forall_treeTokens_iff]
  simp

end Paths

end ExpandTree
