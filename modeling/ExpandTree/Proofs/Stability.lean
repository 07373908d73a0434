import ExpandTree.Proofs.WrittenAlike

/-!
Trees that are read back at all are read back as trees that are written alike: the document and the
query text of a tree do not show what a round trip may change in it.
-/
namespace ExpandTree

open Text

theorem OrderItem.recovered {style : Style} {item : OrderItem}
    (h : Recovered Expr.ofJson Expr.toJson (Expr.text .plain) item.expression) :
    Recovered ofJson toJson (text style) item := by
  obtain ⟨e, direction⟩ := item
  obtain ⟨e', hread, hjson, htext⟩ := h
  refine ⟨⟨e', direction⟩, ?_, ?_, ?_⟩
  · simp [toJson, ofJson, lookup_cons, requiredField, directionOf, Direction.ofKeyword?_keyword,
      hread]
  · simp only [toJson, hjson]
  · simp only [text, htext]

theorem Computed.recovered {c : Computed}
    (h : Recovered Expr.ofJson Expr.toJson (Expr.text .plain) c.expression) :
    Recovered ofJson toJson text c := by
  obtain ⟨e, name⟩ := c
  obtain ⟨e', hread, hjson, htext⟩ := h
  refine ⟨⟨e', name⟩, ?_, ?_, ?_⟩
  · simp [toJson, ofJson, lookup_cons, requiredField, stringField_of_lookup, hread]
  · simp only [toJson, hjson]
  · simp only [text, htext]

theorem Expr.stable_apply {steps : List Expr}
    (h : ∀ e ∈ steps, Recovered ofJson toJson (text .plain) e) :
    Stable listOfJson applyJson applyText steps := by
  intro steps' hread
  rw [applyJson, listOfJson, toJsons_eq_map, ofItems_eq_mapM] at hread
  obtain ⟨hjson, htext⟩ := Stable.list (fun e he => (h e he).stable) hread
  simp only [applyJson, applyText, toJsons_eq_map, texts_eq_map, hjson, htext, and_self]

namespace SelectItem

theorem texts_eq_map (items : List SelectItem) : texts items = items.map text :=
  eq_map_of_cons rfl (fun _ _ => rfl) items

theorem toJson_eq (path : Path) (select : Option Select) :
    toJson ⟨path, select⟩ = .object (("path", path.toJson) ::
      ((select.map selectJson).map fun v => ("select", v)).toList) := by
  cases select <;> rfl

theorem text_eq (path : Path) (select : Option Select) :
    text ⟨path, select⟩ = path.text ++
      ((select.map selectText).map fun s => parenthesized (assigned .select s)).getD [] := by
  cases select with
  | none => exact (List.append_nil _).symm
  | some items => rfl

theorem stable_select {items : Select} (h : ∀ item ∈ items, Stable ofJson toJson text item) :
    Stable selectOfJson selectJson selectText items := by
  intro items' hread
  rw [selectJson, selectOfJson, toJsons_eq_map, ofItems_eq_mapM] at hread
  obtain ⟨hjson, htext⟩ := Stable.list h hread
  simp only [selectJson, selectText, toJsons_eq_map, texts_eq_map, hjson, htext, and_self]

theorem stable {item : SelectItem} (h : ∀ token ∈ item.tokens, token.KeepsDecimals) :
    Stable ofJson toJson text item := by
  induction item using SelectItem.induction with
  | item path select ih =>
    obtain ⟨-, hpath, hselect⟩ := forall_tokens_iff.mp h
    intro item' hread
    obtain ⟨path', select'⟩ := item'
    have hfields : ((("path", path.toJson) ::
        ((select.map selectJson).map fun v => ("select", v)).toList).lookup "path" =
          some path.toJson) ∧
        (("path", path.toJson) ::
          ((select.map selectJson).map fun v => ("select", v)).toList).lookup "select" =
            select.map selectJson := by
      cases select <;> exact ⟨rfl, rfl⟩
    rw [toJson_eq, ofJson_object_eq_ok_iff, hfields.1, hfields.2] at hread
    obtain ⟨⟨v, hv, hpathRead⟩, hselectRead⟩ := hread
    cases hv
    have hitems : ∀ items ∈ select, Stable selectOfJson selectJson selectText items :=
      fun items hitems => stable_select fun item hitem =>
        ih items hitems item hitem ((hselect items hitems).2 item hitem)
    obtain ⟨hpathJson, hpathText⟩ := Path.stable hpath hpathRead
    obtain ⟨hselectJson, hselectText⟩ := Stable.option hitems hselectRead
    rw [toJson_eq, toJson_eq, text_eq, text_eq, hpathJson, hpathText, hselectJson, hselectText]
    exact ⟨rfl, rfl⟩

end SelectItem

namespace Term

/-- An option is read from what is written for its part of the term. -/
theorem stable_part {α : Type} {path : Path} {m : Modifiers} {select : Option Select}
    {expand : Option Json} {part : TermPart} {read : String → Json → Reads α} {json : α → Json}
    (text : α → List Char) {o o' : Option α}
    (hread : partField part (partFields path m select expand) read = .ok o')
    (hvalue : partValue path m select expand part = o.map json)
    (h : ∀ a ∈ o, Stable (read part.word) json text a) :
    o'.map json = o.map json ∧ o'.map text = o.map text := by
  rw [partField_partFields, hvalue] at hread
  exact Stable.option h hread

end Term

theorem withOptions_congr {p q : Path} (h : p.text = q.text) (options : List (List Char)) :
    withOptions p options = withOptions q options := by
  cases options <;> simp only [withOptions, h]

/-- The options that are read for a term are written as its own, whatever stands beside them. -/
theorem Modifiers.stable {m m' : Modifiers} {select select' : Option Select} {path : Path}
    {expand : Option Json} (style : Style) (h : ∀ token ∈ m.tokens select, token.KeepsDecimals)
    (hread : TermOptions.ReadFrom (Term.partFields path m select expand)
      { m' with select := select' }) :
    (∀ path select expand,
      Term.partFields path m' select expand = Term.partFields path m select expand) ∧
      ∀ select, m'.optionTexts style select = m.optionTexts style select := by
  obtain ⟨hfilter, horderBy, hsearch, -, hcompute, happly⟩ := Modifiers.forall_tokens_iff.mp h
  obtain ⟨hfJson, hfText⟩ := Term.stable_part (Expr.text .plain) hread.filter rfl
    fun e he => (Expr.recovered (hfilter e he)).stable
  obtain ⟨hoJson, hoText⟩ := Term.stable_part (orderByText style) hread.orderBy rfl
    fun items hitems => Stable.array (fun item hitem =>
      (OrderItem.recovered (Expr.recovered (horderBy items hitems item hitem).2)).stable) _ _
  obtain ⟨htJson, htText⟩ := Term.stable_part int64Text hread.top rfl
    fun n _ => ((int64_rereads _ n).recovered _).stable
  obtain ⟨hkJson, hkText⟩ := Term.stable_part int64Text hread.skip rfl
    fun n _ => ((int64_rereads _ n).recovered _).stable
  obtain ⟨hnJson, hnText⟩ := Term.stable_part boolText hread.count rfl
    fun b _ => ((boolean_rereads _ b).recovered _).stable
  obtain ⟨hlJson, hlText⟩ := Term.stable_part Levels.text hread.levels rfl
    fun levels _ => (levels.rereads.recovered _).stable
  obtain ⟨hsJson, hsText⟩ := Term.stable_part (Expr.text .search) hread.search rfl
    fun e he => (Expr.recovered (hsearch e he)).stable
  obtain ⟨hcJson, hcText⟩ := Term.stable_part computeText hread.compute rfl
    fun items hitems => Stable.array (fun c hc =>
      (Computed.recovered (Expr.recovered ((hcompute items hitems).2 c hc).2)).stable) _ _
  obtain ⟨haJson, haText⟩ := Term.stable_part applyText hread.apply rfl
    fun steps hsteps => Expr.stable_apply fun e he => Expr.recovered (happly steps hsteps e he)
  refine ⟨fun path select expand => ?_, fun select => ?_⟩
  · simp only [Term.partFields, hfJson, hoJson, htJson, hkJson, hnJson, hlJson, hsJson, hcJson,
      haJson]
  · simp only [optionTexts, hfText, hoText, htText, hkText, hnText, hlText, hsText, hcText, haText]

namespace Term

theorem texts_eq_map (style : Style) (terms : List Term) :
    texts style terms = terms.map (text style) :=
  eq_map_of_cons rfl (fun _ _ => rfl) terms

theorem text_eq (style : Style) (path : Path) (m : Modifiers) (select : Option Select)
    (expand : Option Clause) :
    text style ⟨path, m, select, expand⟩ =
      withOptions path (m.optionTexts style select ++
        ((expand.map (clauseText style)).map (assigned .expand)).toList) := by
  cases expand with
  | none => exact congrArg (withOptions path) (List.append_nil _).symm
  | some terms => rfl

theorem stable_expand {style : Style} {terms : Clause}
    (h : ∀ t ∈ terms, Stable ofJson toJson (text style) t) :
    Stable expandOfJson clauseJson (clauseText style) terms := by
  intro terms' hread
  rw [clauseJson, expandOfJson, toJsons_eq_map, ofItems_eq_mapM] at hread
  obtain ⟨hjson, htext⟩ := Stable.list h hread
  simp only [clauseJson, clauseText, toJsons_eq_map, texts_eq_map, hjson, htext, and_self]

theorem stable {style : Style} {t : Term} (h : ∀ token ∈ t.tokens, token.KeepsDecimals) :
    Stable ofJson toJson (text style) t := by
  induction t using Term.induction with
  | term path m select expand ih =>
    obtain ⟨-, hpath, hm, hexpand⟩ := forall_tokens_iff.mp h
    obtain ⟨-, -, -, hselect, -, -⟩ := Modifiers.forall_tokens_iff.mp hm
    intro t' hread
    obtain ⟨path', m', select', expand'⟩ := t'
    rw [toJson_eq, ofJson_object_eq_ok_iff, termPath_eq_ok_iff, lookup_partFields,
      lookup_partFields] at hread
    obtain ⟨⟨-, v, hv, hpathRead⟩, hoptions, hexpandRead⟩ := hread
    cases hv
    obtain ⟨hpathJson, hpathText⟩ := Path.stable hpath hpathRead
    obtain ⟨hselectJson, hselectText⟩ := stable_part selectText hoptions.select rfl
      fun items hitems => SelectItem.stable_select fun item hitem =>
        SelectItem.stable ((hselect items hitems).2 item hitem)
    have hterms : ∀ terms ∈ expand, Stable expandOfJson clauseJson (clauseText style) terms :=
      fun terms hterms => stable_expand fun t ht =>
        ih terms hterms t ht ((hexpand terms hterms).2 t ht)
    obtain ⟨hexpandJson, hexpandText⟩ := Stable.option hterms hexpandRead
    obtain ⟨hmJson, hmText⟩ := Modifiers.stable style hm hoptions
    rw [toJson_eq, toJson_eq, text_eq, text_eq, hmJson, hmText, hexpandJson, hexpandText]
    constructor
    · simp only [partFields, hpathJson, hselectJson]
    · rw [withOptions_congr hpathText, Modifiers.optionTexts, hselectText]
      rfl

end Term

namespace Clause

theorem keepsDecimals_iff {clause : Clause} :
    (∀ d, Literal.decimal d ∈ clause.literals → d.KeepsText) ↔
      ∀ token ∈ treeTokens clause, token.KeepsDecimals := by
  simp only [literals, List.mem_flatMap, Token.KeepsDecimals]
  constructor
  · intro h token htoken d hd
    exact h d ⟨token, htoken, hd⟩
  · intro h d hd
    obtain ⟨token, htoken, hd⟩ := hd
    exact h token htoken d hd

/-- A tree that is read back from its document has the same document and the same query text, as
long as its decimals keep their texts. -/
theorem reread_writtenAlike {clause other : Clause}
    (h : ∀ d, Literal.decimal d ∈ clause.literals → d.KeepsText)
    (hread : clauseOfJson (clauseJson clause) = .ok other) :
    clauseJson other = clauseJson clause ∧
      ∀ style, queryText style other = queryText style clause := by
  obtain ⟨-, hterms⟩ := forall_treeTokens_iff.mp (keepsDecimals_iff.mp h)
  have hclause : ∀ style, clauseJson other = clauseJson clause ∧
      clauseText style other = clauseText style clause := fun style =>
    Term.stable_expand (fun t ht => Term.stable (hterms t ht)) other hread
  refine ⟨(hclause {}).1, fun style => ?_⟩
  rw [queryText, queryText, (hclause style).2]

/-- A slash inside an identifier, a system name on a segment of the model, a NaN with a sign and a
decimal. -/
def unreadOrders : Clause :=
  [⟨.step ⟨"A/B", .model, none⟩ (.last ⟨"$count", .model, none⟩),
    { filter := some (.binary .lessThan (.literal (.double Double.nan.neg))
        (.literal (.decimal ⟨true, 150, 2, by decide, by decide⟩))) },
    some [⟨.last ⟨"$value", .model, some []⟩, none⟩], none⟩]

/-- The tree that is read back in its place. -/
def rereadOrders : Clause :=
  [⟨.step ⟨"A", .model, none⟩ (.step ⟨"B", .model, none⟩ (.last ⟨"$count", .system, none⟩)),
    { filter := some (.binary .lessThan (.literal (.double Double.nan))
        (.literal (.decimal ⟨true, 150, 2, by decide, by decide⟩))) },
    some [⟨.last ⟨"$value", .system, some []⟩, none⟩], none⟩]

theorem reread_writtenAlike_unreadOrders :
    (∀ d, Literal.decimal d ∈ unreadOrders.literals → d.KeepsText) ∧
      clauseOfJson (clauseJson unreadOrders) = .ok rereadOrders ∧
        clauseJson rereadOrders = clauseJson unreadOrders ∧
          ∀ style, queryText style rereadOrders = queryText style unreadOrders := by
  have hdecimals : ∀ d, Literal.decimal d ∈ unreadOrders.literals → d.KeepsText := by
    intro d hd
    have hliterals : unreadOrders.literals = [.double Double.nan.neg,
        .decimal ⟨true, 150, 2, by decide, by decide⟩] := rfl
    rw [hliterals, List.mem_cons, List.mem_singleton] at hd
    rcases hd with hd | hd
    · cases hd
    · cases hd
      exact Decimal.keepsText_iff_not_negative_zero.mpr (by decide)
  have hread : clauseOfJson (clauseJson unreadOrders) = .ok rereadOrders := by rfl
  exact ⟨hdecimals, hread, reread_writtenAlike hdecimals hread⟩

end Clause

end ExpandTree
