import ExpandTree.Json
import ExpandTree.Term

/-!
Induction on trees. JSON values, expressions, select items and terms hold lists of their own kind;
each principle gives the hypothesis for every member of such a list, so that no statement about a
list has to be proved beside the one about its members. What goes through such a list beside the
tree is recognized here as what lists have for it.
-/
namespace ExpandTree

/-- A function that goes through a list as `map` does is `map`. -/
theorem eq_map_of_cons {α β : Type} {f : List α → List β} {g : α → β} (nil : f [] = [])
    (cons : ∀ a as, f (a :: as) = g a :: f as) (as : List α) : f as = as.map g := by
  induction as with
  | nil => exact nil
  | cons a as ih => rw [cons, ih, List.map_cons]

/-- A function that goes through a list as `flatMap` does is `flatMap`. -/
theorem eq_flatMap_of_cons {α β : Type} {f : List α → List β} {g : α → List β} (nil : f [] = [])
    (cons : ∀ a as, f (a :: as) = g a ++ f as) (as : List α) : f as = as.flatMap g := by
  induction as with
  | nil => exact nil
  | cons a as ih => rw [cons, ih, List.flatMap_cons]

theorem Json.induction {motive : Json → Prop}
    (null : motive .null)
    (boolean : ∀ b, motive (.boolean b))
    (number : ∀ n, motive (.number n))
    (string : ∀ s, motive (.string s))
    (array : ∀ items, (∀ v ∈ items, motive v) → motive (.array items))
    (object : ∀ fields, (∀ field ∈ fields, motive field.2) → motive (.object fields))
    (v : Json) : motive v :=
  @Json.rec motive (fun items => ∀ v ∈ items, motive v)
    (fun fields => ∀ field ∈ fields, motive field.2) (fun field => motive field.2)
    null boolean number string array object
    (by simp) (fun v items h hs => List.forall_mem_cons.mpr ⟨h, hs⟩)
    (by simp) (fun field fields h hs => List.forall_mem_cons.mpr ⟨h, hs⟩)
    (fun _ _ h => h)
    v

theorem Expr.induction {motive : Expr → Prop}
    (literal : ∀ value, motive (.literal value))
    (property : ∀ name, motive (.property name))
    (member : ∀ parent name, motive parent → motive (.member parent name))
    (binary : ∀ op left right, motive left → motive right → motive (.binary op left right))
    (unary : ∀ op operand, motive operand → motive (.unary op operand))
    (call : ∀ function arguments, (∀ e ∈ arguments, motive e) → motive (.call function arguments))
    (star : motive .star)
    (search : ∀ term, motive (.search term))
    (aggregate : ∀ items, (∀ item ∈ items, motive item.expression) → motive (.aggregate items))
    (groupBy : ∀ properties, (∀ e ∈ properties, motive e) → motive (.groupBy properties))
    (groupByThen : ∀ properties child, (∀ e ∈ properties, motive e) → motive child →
      motive (.groupByThen properties child))
    (e : Expr) : motive e :=
  @Expr.rec motive (fun item => motive item.expression) (fun es => ∀ e ∈ es, motive e)
    (fun items => ∀ item ∈ items, motive item.expression)
    literal property member binary unary call star search aggregate groupBy groupByThen
    (fun _ _ _ h => h)
    (by simp) (fun e es he hes => List.forall_mem_cons.mpr ⟨he, hes⟩)
    (by simp) (fun item items h hs => List.forall_mem_cons.mpr ⟨h, hs⟩)
    e

theorem SelectItem.induction {motive : SelectItem → Prop}
    (item : ∀ path select, (∀ items ∈ select, ∀ item ∈ items, motive item) →
      motive ⟨path, select⟩)
    (i : SelectItem) : motive i :=
  @SelectItem.rec motive (fun select => ∀ items ∈ select, ∀ item ∈ items, motive item)
    (fun items => ∀ item ∈ items, motive item)
    item (by simp) (fun items h => by simpa using h)
    (by simp) (fun i items h hs => List.forall_mem_cons.mpr ⟨h, hs⟩)
    i

theorem Term.induction {motive : Term → Prop}
    (term : ∀ path modifiers select expand, (∀ terms ∈ expand, ∀ t ∈ terms, motive t) →
      motive ⟨path, modifiers, select, expand⟩)
    (t : Term) : motive t :=
  @Term.rec motive (fun expand => ∀ terms ∈ expand, ∀ t ∈ terms, motive t)
    (fun terms => ∀ t ∈ terms, motive t)
    term (by simp) (fun terms h => by simpa using h)
    (by simp) (fun t terms h hs => List.forall_mem_cons.mpr ⟨h, hs⟩)
    t

/-- The nested clause; an absent one has no terms. -/
def Term.nested (t : Term) : Clause := t.expand.getD []

theorem Clause.induction {motive : Clause → Prop}
    (clause : ∀ clause, (∀ t ∈ clause, motive t.nested) → motive clause)
    (c : Clause) : motive c := by
  have hterm : ∀ t : Term, motive t.nested := by
    intro t
    induction t using Term.induction with
    | term path modifiers select expand ih =>
      cases expand with
      | none => exact clause [] fun t ht => absurd ht List.not_mem_nil
      | some terms => exact clause terms (ih terms rfl)
  exact clause c fun t _ => hterm t

/-- A clause term by term: the first term brings its nested clause, the others are a clause. -/
theorem Clause.cons_induction {motive : Clause → Prop} (nil : motive [])
    (cons : ∀ t rest, motive t.nested → motive rest → motive (t :: rest)) (c : Clause) :
    motive c := by
  induction c using Clause.induction with
  | clause clause ih =>
    induction clause with
    | nil => exact nil
    | cons t rest ihrest =>
      obtain ⟨ht, hrest⟩ := List.forall_mem_cons.mp ih
      exact cons t rest ht (ihrest hrest)

end ExpandTree
