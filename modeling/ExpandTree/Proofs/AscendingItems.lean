import ExpandTree.Proofs.OptionLists
import ExpandTree.Proofs.Records

/-!
Ascending order items that say so. The style of a text decides on one thing only: whether " asc"
stands behind the expression of each ascending item, at every depth. To tell these places from
others where the same letters stand, a tree may have any word put behind the expressions of its
ascending items; its text then shows the word at each of these places and is otherwise the same.
-/
namespace ExpandTree

open Text

namespace OrderItem

def isAscending (item : OrderItem) : Bool := item.direction = .ascending

/-- The item with a word directly behind its expression, if it is ascending. -/
def markedWith (word : List Char) : OrderItem → OrderItem
  | ⟨e, .ascending⟩ => ⟨.property (String.ofList (e.text .plain ++ word)), .ascending⟩
  | ⟨e, .descending⟩ => ⟨e, .descending⟩

theorem text_markedWith_ascending (e : Expr) (word : List Char) :
    (markedWith word ⟨e, .ascending⟩).text {} = e.text .plain ++ word := String.toList_ofList

theorem text_markedWith_nil (item : OrderItem) : (item.markedWith []).text {} = item.text {} := by
  obtain ⟨e, direction⟩ := item
  cases direction with
  | ascending => exact (text_markedWith_ascending e []).trans (List.append_nil _)
  | descending => rfl

theorem text_markedWith_asc (item : OrderItem) :
    (item.markedWith " asc".toList).text {} = item.text ⟨true⟩ := by
  obtain ⟨e, direction⟩ := item
  cases direction with
  | ascending => exact text_markedWith_ascending e _
  | descending => rfl

end OrderItem

def Modifiers.mapOrderItems (f : OrderItem → OrderItem) (m : Modifiers) : Modifiers :=
  { m with orderBy := m.orderBy.map (List.map f) }

/-- The ascending items of a term's own ordering. -/
def Modifiers.ascendingItems (m : Modifiers) : List OrderItem :=
  (m.orderBy.getD []).filter OrderItem.isAscending

namespace Term

mutual

/-- The term with other order items, in its nested clause as well. -/
def mapOrderItems (f : OrderItem → OrderItem) : Term → Term
  | ⟨path, m, select, none⟩ => ⟨path, m.mapOrderItems f, select, none⟩
  | ⟨path, m, select, some terms⟩ =>
      ⟨path, m.mapOrderItems f, select, some (mapOrderItemsOfAll f terms)⟩
  termination_by structural t => t

def mapOrderItemsOfAll (f : OrderItem → OrderItem) : List Term → List Term
  | [] => []
  | t :: rest => t.mapOrderItems f :: mapOrderItemsOfAll f rest
  termination_by structural terms => terms

end

theorem mapOrderItemsOfAll_eq (f : OrderItem → OrderItem) (terms : List Term) :
    mapOrderItemsOfAll f terms = terms.map (mapOrderItems f) :=
  eq_map_of_cons rfl (fun _ _ => rfl) terms

theorem mapOrderItems_mk (f : OrderItem → OrderItem) (path : Path) (m : Modifiers)
    (select : Option Select) (expand : Option Clause) :
    mapOrderItems f ⟨path, m, select, expand⟩ =
      ⟨path, m.mapOrderItems f, select, expand.map (List.map (mapOrderItems f))⟩ := by
  cases expand with
  | none => rfl
  | some terms => rw [mapOrderItems, mapOrderItemsOfAll_eq, Option.map_some]

/-- The ascending items of a term and of all terms below it, in the order in which they are
written. -/
def ascendingItems (t : Term) : List OrderItem :=
  (t :: t.nested.allTerms).flatMap fun u => u.modifiers.ascendingItems

/-- A text is the same under two styles if the order items are exchanged for items whose texts are
the same under the two styles. -/
theorem text_mapOrderItems {f : OrderItem → OrderItem} {style style' : Style}
    (h : ∀ item, (f item).text style = item.text style') (t : Term) :
    (t.mapOrderItems f).text style = t.text style' := by
  induction t using Term.induction with
  | term path m select expand ih =>
    rw [mapOrderItems_mk, text_eq_withOptions, text_eq_withOptions]
    refine congrArg (withOptions path) (List.filterMap_congr fun part _ => ?_)
    refine congrArg part.optionText ?_
    cases part with
    | orderBy =>
      simp only [optionValue, Modifiers.mapOrderItems, Option.map_map]
      refine Option.map_congr fun items _ => ?_
      rw [Function.comp_apply, orderByText, orderByText, List.map_map]
      exact congrArg (join [',']) (List.map_congr_left fun item _ => h item)
    | expand =>
      simp only [optionValue, Option.map_map]
      refine Option.map_congr fun terms hterms => ?_
      rw [Function.comp_apply, clauseText, clauseText, texts_eq_map, texts_eq_map, List.map_map]
      exact congrArg (join [',']) (List.map_congr_left (ih terms hterms))
    | _ => rfl

end Term

/-- The term with a word directly behind the expression of each ascending item, at every depth. -/
def Term.markedWith (word : List Char) (t : Term) : Term :=
  t.mapOrderItems (OrderItem.markedWith word)

namespace Clause

def mapOrderItems (f : OrderItem → OrderItem) (clause : Clause) : Clause :=
  Term.mapOrderItemsOfAll f clause

/-- The tree with a word directly behind the expression of each ascending item. -/
def markedWith (word : List Char) (clause : Clause) : Clause :=
  clause.mapOrderItems (OrderItem.markedWith word)

/-- The ascending items of all terms at every depth. -/
def ascendingItems (clause : Clause) : List OrderItem :=
  clause.allTerms.flatMap fun t => t.modifiers.ascendingItems

theorem ascendingItems_eq_flatMap (clause : Clause) :
    clause.ascendingItems = clause.flatMap Term.ascendingItems := by
  induction clause with
  | nil => rfl
  | cons t rest ih =>
    rw [List.flatMap_cons, ← ih, ascendingItems, ascendingItems, Term.ascendingItems,
      allTerms_cons, ← List.flatMap_append, List.cons_append]

theorem queryText_mapOrderItems {f : OrderItem → OrderItem} {style style' : Style}
    (h : ∀ item, (f item).text style = item.text style') (clause : Clause) :
    queryText style (clause.mapOrderItems f) = queryText style' clause := by
  rw [queryText, queryText, clauseText, clauseText, mapOrderItems, Term.mapOrderItemsOfAll_eq,
    Term.texts_eq_map, Term.texts_eq_map, List.map_map]
  exact congrArg (fun texts => assigned .expand (join [','] texts))
    (List.map_congr_left fun t _ => t.text_mapOrderItems h)

end Clause

section Spreads

/-- The pieces of a text, each of them up to the end of an item's expression, with a word behind
every piece, and the rest of the text. -/
def spread (word : List Char) (pieces : List (List Char × OrderItem)) (rest : List Char) :
    List Char :=
  pieces.flatMap (fun piece => piece.1 ++ piece.2.expression.text .plain ++ word) ++ rest

theorem length_spread (word : List Char) (pieces : List (List Char × OrderItem))
    (rest : List Char) :
    (spread word pieces rest).length =
      (spread [] pieces rest).length + word.length * pieces.length := by
  induction pieces with
  | nil => rfl
  | cons piece pieces ih =>
    simp only [spread, List.flatMap_cons, List.length_append, List.length_nil, List.length_cons,
      Nat.mul_succ] at ih ⊢
    omega

/-- A text that shows any word behind the expressions of these items, one after the other, and
nowhere else. -/
def Spreads (items : List OrderItem) (written : List Char → List Char) : Prop :=
  ∃ pieces rest, pieces.map Prod.snd = items ∧ ∀ word, written word = spread word pieces rest

theorem spreads_const (text : List Char) : Spreads [] fun _ => text :=
  ⟨[], text, rfl, fun _ => rfl⟩

variable {items more : List OrderItem} {written other : List Char → List Char}

theorem Spreads.congr (h : Spreads items written) (heq : ∀ word, other word = written word) :
    Spreads items other := by
  rwa [funext heq]

theorem Spreads.append (h : Spreads items written) (hmore : Spreads more other) :
    Spreads (items ++ more) fun word => written word ++ other word := by
  obtain ⟨pieces, rest, rfl, hwritten⟩ := h
  obtain ⟨pieces', rest', rfl, hother⟩ := hmore
  cases pieces' with
  | nil =>
    refine ⟨pieces, rest ++ rest', (List.append_nil _).symm, fun word => ?_⟩
    simp [hwritten, hother, spread]
  | cons piece pieces' =>
    -- What is left of the first text comes before the first item of the second.
    refine ⟨pieces ++ (rest ++ piece.1, piece.2) :: pieces', rest', by simp, fun word => ?_⟩
    simp [hwritten, hother, spread]

theorem Spreads.between (h : Spreads items written) (before after : List Char) :
    Spreads items fun word => before ++ written word ++ after := by
  have hbetween := ((spreads_const before).append h).append (spreads_const after)
  rwa [List.append_nil] at hbetween

theorem spreads_join {α : Type} {slots : α → List OrderItem} {write : α → List Char → List Char}
    {as : List α} (h : ∀ a ∈ as, Spreads (slots a) (write a)) (separator : List Char) :
    Spreads (as.flatMap slots) fun word => join separator (as.map fun a => write a word) := by
  induction as with
  | nil => exact spreads_const []
  | cons a as ih =>
    obtain ⟨ha, has⟩ := List.forall_mem_cons.mp h
    cases as with
    | nil =>
      rw [List.flatMap_cons, List.flatMap_nil, List.append_nil]
      exact ha
    | cons b bs => exact (ha.between [] separator).append (ih has)

theorem spreads_withOptions {slots : TermPart → List OrderItem}
    {write : TermPart → List Char → List Char} {parts : List TermPart}
    (h : ∀ part ∈ parts, Spreads (slots part) (write part)) (path : Path) :
    Spreads (parts.flatMap slots) fun word =>
      withOptions path (parts.map fun part => write part word) := by
  cases parts with
  | nil => exact spreads_const path.text
  | cons part parts =>
    exact (spreads_const path.text).append ((spreads_join h [';']).between ['('] [')'])

end Spreads

/-- What a filter leaves out may be left in where it contributes nothing. -/
theorem flatMap_filter_of_eq_nil {α β : Type} {p : α → Bool} {f : α → List β}
    (h : ∀ a, p a = false → f a = []) (as : List α) :
    (as.filter p).flatMap f = as.flatMap f := by
  induction as with
  | nil => rfl
  | cons a rest ih =>
    cases hp : p a with
    | false => rw [List.filter_cons, hp, List.flatMap_cons, h a hp, ← ih]; rfl
    | true => rw [List.filter_cons, hp, if_pos rfl, List.flatMap_cons, List.flatMap_cons, ih]

namespace Term

/-- The ascending items within the value of an option. -/
def itemsIn (t : Term) : TermPart → List OrderItem
  | .orderBy => t.modifiers.ascendingItems
  | .expand => t.nested.ascendingItems
  | _ => []

theorem flatMap_itemsIn (t : Term) : t.presentOptions.flatMap t.itemsIn = t.ascendingItems := by
  have habsent : ∀ part, t.hasOption part = false → t.itemsIn part = [] := by
    intro part hpart
    cases part with
    | orderBy =>
      rw [hasOption, Option.isSome_eq_false_iff, Option.isNone_iff_eq_none] at hpart
      rw [itemsIn, Modifiers.ascendingItems, hpart]
      rfl
    | expand =>
      rw [hasOption, Option.isSome_eq_false_iff, Option.isNone_iff_eq_none] at hpart
      rw [itemsIn, nested, hpart]
      rfl
    | _ => rfl
  rw [presentOptions, flatMap_filter_of_eq_nil habsent]
  exact congrArg (t.modifiers.ascendingItems ++ ·) (List.append_nil _)

theorem hasOption_mapOrderItems (f : OrderItem → OrderItem) (t : Term) :
    (t.mapOrderItems f).hasOption = t.hasOption := by
  obtain ⟨path, m, select, expand⟩ := t
  rw [mapOrderItems_mk]
  funext part
  cases part <;> simp [hasOption, Modifiers.mapOrderItems]

theorem mapOrderItems_path (f : OrderItem → OrderItem) (t : Term) :
    (t.mapOrderItems f).path = t.path := by
  obtain ⟨path, m, select, expand⟩ := t
  rw [mapOrderItems_mk]

theorem presentOptions_mapOrderItems (f : OrderItem → OrderItem) (t : Term) :
    (t.mapOrderItems f).presentOptions = t.presentOptions := by
  rw [presentOptions, hasOption_mapOrderItems, presentOptions]

end Term

section Texts

theorem OrderItem.spreads (item : OrderItem) :
    Spreads ([item].filter isAscending) fun word => (item.markedWith word).text {} := by
  obtain ⟨e, direction⟩ := item
  cases direction with
  | ascending =>
    refine ⟨[([], ⟨e, .ascending⟩)], [], rfl, fun word => ?_⟩
    simp [spread, text_markedWith_ascending]
  | descending => exact spreads_const (text {} ⟨e, .descending⟩)

theorem spreads_orderByText (items : List OrderItem) :
    Spreads (items.filter OrderItem.isAscending) fun word =>
      orderByText {} (items.map (OrderItem.markedWith word)) := by
  have hjoin := spreads_join (fun item (_ : item ∈ items) => item.spreads) [',']
  rw [← List.filter_flatMap, List.flatMap_singleton'] at hjoin
  exact hjoin.congr fun word => congrArg (join [',']) List.map_map

theorem spreads_clauseText {terms : Clause}
    (h : ∀ t ∈ terms, Spreads t.ascendingItems fun word => (t.markedWith word).text {}) :
    Spreads terms.ascendingItems fun word => clauseText {} (terms.markedWith word) := by
  have hjoin := spreads_join h [',']
  rw [← Clause.ascendingItems_eq_flatMap] at hjoin
  refine hjoin.congr fun word => ?_
  rw [clauseText, Term.texts_eq_map, Clause.markedWith, Clause.mapOrderItems,
    Term.mapOrderItemsOfAll_eq, List.map_map]
  rfl

namespace Term

variable {t : Term}

theorem spreads_optionValue
    (h : ∀ u ∈ t.nested, Spreads u.ascendingItems fun word => (u.markedWith word).text {})
    (part : TermPart) :
    Spreads (t.itemsIn part) fun word => ((t.markedWith word).optionValue {} part).getD [] := by
  obtain ⟨path, m, select, expand⟩ := t
  simp only [markedWith, mapOrderItems_mk]
  have hsame := spreads_const ((optionValue {} ⟨path, m, select, expand⟩ part).getD [])
  cases part with
  | orderBy =>
    obtain ⟨filter, orderBy, _⟩ := m
    cases orderBy with
    | none => exact spreads_const []
    | some items => exact spreads_orderByText items
  | expand =>
    cases expand with
    | none => exact spreads_const []
    | some terms =>
      refine (spreads_clauseText h).congr fun word => ?_
      simp [optionValue, Clause.markedWith, Clause.mapOrderItems, mapOrderItemsOfAll_eq, nested]
  | _ => exact hsame

theorem spreads_of_nested
    (h : ∀ u ∈ t.nested, Spreads u.ascendingItems fun word => (u.markedWith word).text {}) :
    Spreads t.ascendingItems fun word => (t.markedWith word).text {} := by
  have hoptions := spreads_withOptions (fun part (_ : part ∈ t.presentOptions) =>
    (spreads_const (assigned part [])).append (spreads_optionValue h part)) t.path
  rw [← flatMap_itemsIn]
  refine hoptions.congr fun word => ?_
  rw [text_eq_withOptions, optionTexts_eq_map, markedWith, presentOptions_mapOrderItems,
    mapOrderItems_path]
  simp [assigned]

end Term

/-- Every term shows any word behind its ascending items and those of all terms below it. -/
theorem Clause.spreads_terms (clause : Clause) :
    ∀ t ∈ clause, Spreads t.ascendingItems fun word => (t.markedWith word).text {} := by
  induction clause using Clause.induction with
  | clause clause ih =>
    intro t ht
    exact Term.spreads_of_nested (ih t ht)

end Texts

namespace Clause

/-- The style shows at the ascending items and nowhere else. The text falls into pieces, one for
each ascending item of the tree and up to the end of its expression, and a rest. Whatever word is
put behind the ascending items of the tree stands behind these pieces; nothing stands there by
default, and " asc" in the explicit style. -/
theorem queryText_explicitAscending (clause : Clause) :
    (∃ pieces rest, pieces.map Prod.snd = clause.ascendingItems ∧
      (∀ word, queryText {} (clause.markedWith word) = spread word pieces rest) ∧
      queryText {} clause = spread [] pieces rest ∧
      queryText ⟨true⟩ clause = spread " asc".toList pieces rest) ∧
    (queryText ⟨true⟩ clause).length =
      (queryText {} clause).length + 4 * clause.ascendingItems.length ∧
    (queryText ⟨true⟩ clause = queryText {} clause ↔ clause.ascendingItems.length = 0) := by
  obtain ⟨pieces, rest, hpieces, hwritten⟩ := (spreads_const (assigned .expand [])).append
    (spreads_clauseText clause.spreads_terms)
  have hword : ∀ word, queryText {} (clause.markedWith word) = spread word pieces rest :=
    fun word => by simp [queryText, assigned, ← hwritten]
  have hdefault : queryText {} clause = spread [] pieces rest := by
    rw [← hword, markedWith, queryText_mapOrderItems OrderItem.text_markedWith_nil]
  have hexplicit : queryText ⟨true⟩ clause = spread " asc".toList pieces rest := by
    rw [← hword, markedWith, queryText_mapOrderItems OrderItem.text_markedWith_asc]
  have hcount : clause.ascendingItems.length = pieces.length :=
    (congrArg List.length hpieces).symm.trans (List.length_map _)
  have hlength : (queryText ⟨true⟩ clause).length =
      (queryText {} clause).length + 4 * clause.ascendingItems.length := by
    rw [hexplicit, hdefault, hcount]
    exact length_spread _ _ _
  refine ⟨⟨pieces, rest, hpieces, hword, hdefault, hexplicit⟩, hlength, ?_, ?_⟩
  · intro heq
    rw [heq] at hlength
    omega
  · intro hnone
    rw [hcount] at hnone
    rw [hexplicit, hdefault, List.eq_nil_of_length_eq_zero hnone]
    rfl

end Clause

end ExpandTree
