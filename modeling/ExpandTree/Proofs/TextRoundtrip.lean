import ExpandTree.Proofs.JsonReading
import ExpandTree.Proofs.Roundtrip

/-!
Documents as text. The document of a tree without doubles is a canonical value, so its text is read
as that document, in either layout; what becomes of the tree is then up to its paths.
-/
namespace ExpandTree

open Json (Canonical)

/-- None of the literals of a token is a double. -/
def Token.DoubleFree (token : Token) : Prop := ∀ d, Literal.double d ∉ token.literals

theorem canonical_integer (n : Int64) : Canonical (Json.integer n) :=
  .integer ⟨n.minValue_le_toInt, Int.le_trans n.toInt_le (by decide)⟩

theorem canonical_array {α : Type} {toJson : α → Json} {as : List α}
    (h : ∀ a ∈ as, Canonical (toJson a)) : Canonical (.array (as.map toJson)) :=
  .array (List.forall_mem_map.mpr h)

theorem canonical_object (keys : List String) (hsorted : keys.Pairwise (· < ·))
    {fields : Json.Fields} (hkeys : fields.map Prod.fst = keys)
    (h : ∀ field ∈ fields, Canonical field.2) : Canonical (.object fields) :=
  .object (List.pairwise_map.mp (hkeys ▸ hsorted)) h

theorem Literal.canonical {l : Literal} (h : ∀ d, l ≠ .double d) : Canonical l.toJson := by
  cases l with
  | null => exact .null
  | boolean b => exact .boolean b
  | int64 n => exact canonical_integer n
  | double d => exact absurd rfl (h d)
  | decimal d =>
    exact canonical_object ["decimal"] (by decide) rfl (by simp [stringOf, Canonical.string])
  | string s => exact .string s

theorem KeyValue.canonical {key : KeyValue} (h : ∀ d, key.value ≠ .double d) :
    Canonical key.toJson := by
  obtain ⟨name, value⟩ := key
  refine canonical_object ["name", "value"] (by decide) rfl ?_
  have hvalue := Literal.canonical h
  cases name with
  | none => simp [Canonical.null, hvalue]
  | some name => simp [Canonical.string, hvalue]

theorem Segment.canonical {s : Segment} (h : ∀ d, Literal.double d ∉ s.literals) :
    Canonical s.toJson := by
  obtain ⟨identifier, kind, keys⟩ := s
  cases keys with
  | none => exact .string identifier
  | some keys =>
    have hkeys : Canonical (.array (keys.map KeyValue.toJson)) := canonical_array fun key hkey =>
      KeyValue.canonical fun d hd => h d (hd ▸ List.mem_map_of_mem hkey)
    exact canonical_object ["keys", "segment"] (by decide) rfl (by simp [Canonical.string, hkeys])

theorem Path.canonical {p : Path} (h : ∀ d, Literal.double d ∉ p.literals) :
    Canonical p.toJson := by
  rw [toJson]
  split
  · refine canonical_array fun s hs => Segment.canonical fun d hd => ?_
    exact h d (List.mem_flatMap_of_mem hs hd)
  · exact .string _

namespace Expr

theorem canonical_list {es : List Expr} (h : ∀ e ∈ es, Canonical e.toJson) :
    Canonical (.array (toJsons es)) := by
  rw [toJsons_eq_map]
  exact canonical_array h

theorem canonical_aggregation {item : Aggregation} (h : Canonical item.expression.toJson) :
    Canonical item.toJson :=
  canonical_object ["as", "expr", "with"] (by decide) rfl (by simp [Canonical.string, h])

theorem canonical {e : Expr} (h : ∀ token ∈ e.tokens, token.DoubleFree) : Canonical e.toJson := by
  induction e using Expr.induction with
  | literal l =>
    obtain ⟨hself, -⟩ := forall_tokens_iff.mp h
    have hl : ∀ d, l ≠ .double d := by
      intro d hd
      exact hself d (hd ▸ List.mem_singleton_self l)
    exact canonical_object ["literal"] (by decide) rfl (by simp [Literal.canonical hl])
  | property name =>
    exact canonical_object ["property"] (by decide) rfl (by simp [Canonical.string])
  | member parent name ih =>
    obtain ⟨-, hbelow⟩ := forall_tokens_iff.mp h
    have hparent := ih (hbelow parent List.mem_cons_self)
    exact canonical_object ["parent", "property"] (by decide) rfl
      (by simp [Canonical.string, hparent])
  | binary op left right ihl ihr =>
    obtain ⟨-, hbelow⟩ := forall_tokens_iff.mp h
    have hleft := ihl (hbelow left List.mem_cons_self)
    have hright := ihr (hbelow right (List.mem_cons_of_mem left List.mem_cons_self))
    exact canonical_object ["binary", "left", "right"] (by decide) rfl
      (by simp [Canonical.string, hleft, hright])
  | unary op operand ih =>
    obtain ⟨-, hbelow⟩ := forall_tokens_iff.mp h
    have hoperand := ih (hbelow operand List.mem_cons_self)
    exact canonical_object ["operand", "unary"] (by decide) rfl
      (by simp [Canonical.string, hoperand])
  | call function arguments ih =>
    obtain ⟨-, hbelow⟩ := forall_tokens_iff.mp h
    have harguments := canonical_list fun e he => ih e he (hbelow e he)
    exact canonical_object ["args", "call"] (by decide) rfl
      (by simp [Canonical.string, harguments])
  | star => exact .string "*"
  | search term =>
    exact canonical_object ["search"] (by decide) rfl (by simp [Canonical.string])
  | aggregate items ih =>
    obtain ⟨-, hbelow⟩ := forall_tokens_iff.mp h
    have hitems : Canonical (.array (aggregationsToJson items)) := by
      rw [aggregationsToJson_eq_map]
      exact canonical_array fun item hitem =>
        canonical_aggregation (ih item hitem (hbelow _ (List.mem_map_of_mem hitem)))
    exact canonical_object ["aggregate"] (by decide) rfl (by simp [hitems])
  | groupBy properties ih =>
    obtain ⟨-, hbelow⟩ := forall_tokens_iff.mp h
    have hproperties := canonical_list fun e he => ih e he (hbelow e he)
    exact canonical_object ["groupby"] (by decide) rfl (by simp [hproperties])
  | groupByThen properties child ih ihc =>
    obtain ⟨hbelow, hchild⟩ := List.forall_mem_append.mp (forall_tokens_iff.mp h).2
    have hproperties := canonical_list fun e he => ih e he (hbelow e he)
    have hthen := ihc (hchild child List.mem_cons_self)
    exact canonical_object ["groupby", "then"] (by decide) rfl (by simp [hproperties, hthen])

end Expr

theorem OrderItem.canonical {item : OrderItem} (h : Canonical item.expression.toJson) :
    Canonical item.toJson :=
  canonical_object ["direction", "expr"] (by decide) rfl (by simp [Canonical.string, h])

theorem Computed.canonical {c : Computed} (h : Canonical c.expression.toJson) :
    Canonical c.toJson :=
  canonical_object ["as", "expr"] (by decide) rfl (by simp [Canonical.string, h])

theorem Levels.canonical (levels : Levels) : Canonical levels.toJson := by
  cases levels with
  | depth n => exact canonical_integer n
  | max => exact .string "max"

namespace SelectItem

theorem canonical_select {items : Select} (h : ∀ item ∈ items, Canonical item.toJson) :
    Canonical (selectJson items) := by
  rw [selectJson, toJsons_eq_map]
  exact canonical_array h

theorem canonical {item : SelectItem} (h : ∀ token ∈ item.tokens, token.DoubleFree) :
    Canonical item.toJson := by
  induction item using SelectItem.induction with
  | item path select ih =>
    obtain ⟨-, hpath, hselect⟩ := forall_tokens_iff.mp h
    have hpathJson := Path.canonical hpath
    cases select with
    | none => exact canonical_object ["path"] (by decide) rfl (by simp [hpathJson])
    | some items =>
      have hitems : Canonical (.array (toJsons items)) := canonical_select fun item hitem =>
        ih items rfl item hitem ((hselect items rfl).2 item hitem)
      exact canonical_object ["path", "select"] (by decide) rfl (by simp [hpathJson, hitems])

end SelectItem

namespace TermPart

theorem sorted_pairwise : sorted.Pairwise (fun a b => a.word < b.word) := by decide

end TermPart

namespace Term

theorem canonical_partFields {path : Path} {m : Modifiers} {select : Option Select}
    {expand : Option Json}
    (h : ∀ part, ∀ v ∈ partValue path m select expand part, Canonical v) :
    Canonical (.object (partFields path m select expand)) := by
  rw [partFields_eq]
  refine .object ?_ ?_
  · refine TermPart.sorted_pairwise.filterMap _ fun a b hlt field hfield other hother => ?_
    obtain ⟨v, -, rfl⟩ := Option.map_eq_some_iff.mp hfield
    obtain ⟨w, -, rfl⟩ := Option.map_eq_some_iff.mp hother
    exact hlt
  · intro field hfield
    obtain ⟨part, -, hpart⟩ := List.mem_filterMap.mp hfield
    obtain ⟨v, hv, rfl⟩ := Option.map_eq_some_iff.mp hpart
    exact h part v hv

theorem canonical {t : Term} (h : ∀ token ∈ t.tokens, token.DoubleFree) : Canonical t.toJson := by
  induction t using Term.induction with
  | term path m select expand ih =>
    obtain ⟨-, hpath, hm, hexpand⟩ := forall_tokens_iff.mp h
    obtain ⟨hfilter, horderBy, hsearch, hselect, hcompute, happly⟩ :=
      Modifiers.forall_tokens_iff.mp hm
    rw [toJson_eq]
    refine canonical_partFields fun part v hv => ?_
    cases part with
    | path =>
      cases hv
      exact Path.canonical hpath
    | filter =>
      obtain ⟨e, he, rfl⟩ := Option.map_eq_some_iff.mp hv
      exact Expr.canonical (hfilter e he)
    | orderBy =>
      obtain ⟨items, hitems, rfl⟩ := Option.map_eq_some_iff.mp hv
      exact canonical_array fun item hitem =>
        OrderItem.canonical (Expr.canonical (horderBy items hitems item hitem).2)
    | top | skip =>
      obtain ⟨n, -, rfl⟩ := Option.map_eq_some_iff.mp hv
      exact canonical_integer n
    | count =>
      obtain ⟨b, -, rfl⟩ := Option.map_eq_some_iff.mp hv
      exact .boolean b
    | levels =>
      obtain ⟨levels, -, rfl⟩ := Option.map_eq_some_iff.mp hv
      exact levels.canonical
    | search =>
      obtain ⟨e, he, rfl⟩ := Option.map_eq_some_iff.mp hv
      exact Expr.canonical (hsearch e he)
    | select =>
      obtain ⟨items, hitems, rfl⟩ := Option.map_eq_some_iff.mp hv
      exact SelectItem.canonical_select fun item hitem =>
        SelectItem.canonical ((hselect items hitems).2 item hitem)
    | compute =>
      obtain ⟨items, hitems, rfl⟩ := Option.map_eq_some_iff.mp hv
      exact canonical_array fun c hc =>
        Computed.canonical (Expr.canonical ((hcompute items hitems).2 c hc).2)
    | apply =>
      obtain ⟨steps, hsteps, rfl⟩ := Option.map_eq_some_iff.mp hv
      exact Expr.canonical_list fun e he => Expr.canonical (happly steps hsteps e he)
    | expand =>
      obtain ⟨terms, hterms, rfl⟩ := Option.map_eq_some_iff.mp hv
      rw [clauseJson, toJsons_eq_map]
      exact canonical_array fun t ht => ih terms hterms t ht ((hexpand terms hterms).2 t ht)

end Term

namespace Clause

theorem canonical {clause : Clause} (h : ∀ d, Literal.double d ∉ clause.literals) :
    Canonical (clauseJson clause) := by
  have htokens : ∀ token ∈ treeTokens clause, token.DoubleFree := by
    intro token htoken d hd
    exact h d (List.mem_flatMap_of_mem htoken hd)
  obtain ⟨-, hterms⟩ := forall_treeTokens_iff.mp htokens
  rw [clauseJson, Term.toJsons_eq_map]
  exact canonical_array fun t ht => Term.canonical (hterms t ht)

/-- A tree without doubles is read from the text of its document, in either layout, as an equal
tree, provided that its paths show their kinds and keep their identifiers apart and that its
document nests no deeper than the reader goes. -/
theorem text_rereads {clause : Clause} (hdoubles : ∀ d, Literal.double d ∉ clause.literals)
    (hpaths : ∀ p ∈ clause.paths, p.KindsShown ∧ p.Separable)
    (hnesting : (clauseJson clause).nesting ≤ 127) (layout : Json.Layout) :
    ∃ other, clauseOfText ((clauseJson clause).text layout) = .ok other ∧
      (other == clause) = true := by
  have hnan : ∀ l ∈ clause.literals, l.isNaN = false := by
    intro l hl
    cases l with
    | double d => exact absurd hl (hdoubles d)
    | null | boolean | int64 | decimal | string => rfl
  have hkept : ∀ p ∈ clause.paths, p.Kept := fun p hp =>
    (Path.kept_iff fun l hl => hnan l (literals_of_mem_paths hp hl)).mpr (hpaths p hp)
  obtain ⟨other, hread, heq⟩ := (rereads_iff hnan).mpr hkept
  refine ⟨other, ?_, heq⟩
  rw [clauseOfText, Json.ofText_text (canonical hdoubles) hnesting layout]
  simp only [hread]
  rfl

/-- Control characters, a quote, a backslash, the neighbours of the surrogates, the least integer
and empty lists. -/
def escapedOrders : Clause :=
  [⟨.step (.ofIdentifier "Orders\n\x00") (.last ⟨"$\"\\", .system, some []⟩),
    { filter := some (.call "f" [.literal (.string "\ud7ff\ue000𐀀\x7f\x1f"),
        .literal (.int64 Int64.minValue)])
      orderBy := some []
      top := some Int64.maxValue },
    some [⟨.last (.ofIdentifier "É"), some []⟩], some []⟩]

theorem text_rereads_escapedOrders :
    (∀ d, Literal.double d ∉ escapedOrders.literals) ∧
      (∀ p ∈ escapedOrders.paths, p.KindsShown ∧ p.Separable) ∧
        (clauseJson escapedOrders).nesting ≤ 127 ∧
          ∃ other, clauseOfText ((clauseJson escapedOrders).text .indented) = .ok other ∧
            (other == escapedOrders) = true := by
  have hdoubles : ∀ d, Literal.double d ∉ escapedOrders.literals := by
    intro d hd
    have hliterals : escapedOrders.literals =
        [.string "\ud7ff\ue000𐀀\x7f\x1f", .int64 Int64.minValue] := rfl
    rw [hliterals] at hd
    simp at hd
  have hpaths : ∀ p ∈ escapedOrders.paths, p.KindsShown ∧ p.Separable := by decide
  have hnesting : (clauseJson escapedOrders).nesting ≤ 127 := by decide
  exact ⟨hdoubles, hpaths, hnesting, text_rereads hdoubles hpaths hnesting .indented⟩

end Clause

end ExpandTree
