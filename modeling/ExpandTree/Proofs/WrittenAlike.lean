import ExpandTree.Proofs.Roundtrip
import ExpandTree.QueryText

/-!
Trees that are written alike once they are read back. A document that is read again may give back a
tree with other segments, other kinds or another NaN. Neither the document nor the query text of
that tree shows a difference.
-/
namespace ExpandTree

open Text

/-- Whatever is read from the document of a value is written as the value is. -/
def Stable {ε α : Type} (read : Json → Except ε α) (json : α → Json) (text : α → List Char)
    (a : α) : Prop :=
  ∀ b, read (json a) = .ok b → json b = json a ∧ text b = text a

/-- The document of a value is read, and what is read is written as the value is. -/
def Recovered {ε α : Type} (read : Json → Except ε α) (json : α → Json) (text : α → List Char)
    (a : α) : Prop :=
  ∃ b, read (json a) = .ok b ∧ json b = json a ∧ text b = text a

section Stable

variable {ε α : Type} {read : Json → Except ε α} {json : α → Json} {text : α → List Char}

theorem Recovered.stable {a : α} (h : Recovered read json text a) : Stable read json text a := by
  intro b hb
  obtain ⟨b', hread, hjson, htext⟩ := h
  cases hb.symm.trans hread
  exact ⟨hjson, htext⟩

/-- What reads back as it was is written as it was. -/
theorem Rereads.recovered [BEq α] [LawfulBEq α] {a : α} (h : Rereads read json a)
    (text : α → List Char) : Recovered read json text a := by
  obtain ⟨b, hread, heq⟩ := h
  rw [eq_of_beq heq] at hread
  exact ⟨a, hread, rfl, rfl⟩

theorem Stable.list {as bs : List α} (h : ∀ a ∈ as, Stable read json text a)
    (hread : (as.map json).mapM read = .ok bs) :
    bs.map json = as.map json ∧ bs.map text = as.map text := by
  rw [mapM_eq_ok_iff, List.forall₂_map_left_iff] at hread
  induction hread with
  | nil => exact ⟨rfl, rfl⟩
  | cons hhead _ ih =>
    obtain ⟨ha, has⟩ := List.forall_mem_cons.mp h
    obtain ⟨hjson, htext⟩ := ha _ hhead
    obtain ⟨hjsons, htexts⟩ := ih has
    exact ⟨congrArg₂ List.cons hjson hjsons, congrArg₂ List.cons htext htexts⟩

theorem Recovered.list {as : List α} (h : ∀ a ∈ as, Recovered read json text a) :
    ∃ bs, (as.map json).mapM read = .ok bs ∧
      bs.map json = as.map json ∧ bs.map text = as.map text := by
  have hread : ∃ bs, (as.map json).mapM read = .ok bs := by
    refine exists_mapM_ok_iff.mpr (List.forall_mem_map.mpr fun a ha => ?_)
    obtain ⟨b, hb, -⟩ := h a ha
    exact ⟨b, hb⟩
  obtain ⟨bs, hbs⟩ := hread
  exact ⟨bs, hbs, Stable.list (fun a ha => (h a ha).stable) hbs⟩

theorem Stable.option {o o' : Option α} (h : ∀ a ∈ o, Stable read json text a)
    (hread : (o.map json).mapM read = .ok o') :
    o'.map json = o.map json ∧ o'.map text = o.map text := by
  cases o with
  | none =>
    cases hread
    exact ⟨rfl, rfl⟩
  | some a =>
    rw [Option.map_some, optionMapM_some] at hread
    obtain ⟨b, hb, rfl⟩ := map_eq_ok_iff.mp hread
    obtain ⟨hjson, htext⟩ := h a rfl b hb
    exact ⟨congrArg some hjson, congrArg some htext⟩

theorem Stable.array {read : Json → Reads α} {as : List α}
    (h : ∀ a ∈ as, Stable read json text a) (key : String) (separator : List Char) :
    Stable (listOfJson key read) (fun as => .array (as.map json))
      (fun as => join separator (as.map text)) as := by
  intro bs hread
  rw [listOfJson, itemsOf, ok_bind] at hread
  obtain ⟨hjson, htext⟩ := Stable.list h hread
  exact ⟨congrArg Json.array hjson, congrArg (join separator) htext⟩

end Stable

namespace Decimal

/-- What is read from the text of a decimal has that text again. -/
def KeepsText (d : Decimal) : Prop := ∀ other, ofText d.text = .ok other → other.text = d.text

theorem keepsText_iff {d : Decimal} : d.KeepsText ↔ d.reread.text = d.text := by
  simp only [KeepsText, ofText_text, Except.ok.injEq, forall_eq']

/-- Only a zero with a sign is written in another way once it is read. -/
theorem keepsText_iff_not_negative_zero {d : Decimal} :
    d.KeepsText ↔ (d.coefficient = 0 → d.negative = false) := by
  rw [keepsText_iff]
  cases hnegative : d.negative with
  | false => simp [reread, text, hnegative]
  | true => by_cases hzero : d.coefficient = 0 <;> simp [reread, text, hnegative, hzero]

end Decimal

/-- Every decimal among the literals of a token keeps its text. -/
def Token.KeepsDecimals (token : Token) : Prop :=
  ∀ d, Literal.decimal d ∈ token.literals → d.KeepsText

namespace Literal

theorem recovered {l : Literal} (h : ∀ d, l = .decimal d → d.KeepsText) :
    Recovered ofJson toJson text l := by
  cases l with
  | null => exact ⟨.null, rfl, rfl, rfl⟩
  | boolean b => exact ⟨.boolean b, rfl, rfl, rfl⟩
  | string s => exact ⟨.string s, rfl, rfl, rfl⟩
  | int64 n =>
    refine ⟨.int64 n, ?_, rfl, rfl⟩
    rw [toJson, Json.integer, ofJson, Number.int64?_toInt]
  | decimal d =>
    have hd := Decimal.keepsText_iff.mp (h d rfl)
    refine ⟨.decimal d.reread, ?_, ?_, hd⟩
    · simp [toJson, ofJson, ofFields, stringField_of_lookup, stringOf, lookup_cons,
        Decimal.ofText_text]
    · rw [toJson, toJson, hd]
  | double d =>
    by_cases hfinite : d.isFinite = true
    · refine ⟨.double d, ?_, rfl, rfl⟩
      rw [toJson, if_pos hfinite]
      rfl
    · have htext := Double.ofText_specialText (Bool.eq_false_iff.mpr hfinite)
      have hspecial : d.reread.isFinite = d.isFinite ∧ d.reread.specialText = d.specialText := by
        unfold Double.reread
        split
        · rename_i hnan
          rw [Bool.eq_false_iff.mpr hfinite, Double.specialText, Double.specialText, if_pos hnan]
          exact ⟨by decide, by decide⟩
        · exact ⟨rfl, rfl⟩
      refine ⟨.double d.reread, ?_, ?_, ?_⟩
      · simp [toJson, hfinite, ofJson, ofFields, stringField_of_lookup, stringOf, htext]
      · simp only [toJson, hspecial, hfinite, Bool.false_eq_true, if_false]
      · simp only [text, Double.text, hspecial, hfinite, Bool.false_eq_true, if_false]

end Literal

theorem KeyValue.recovered {key : KeyValue} (h : ∀ d, key.value = .decimal d → d.KeepsText) :
    Recovered ofJson toJson text key := by
  obtain ⟨name, value⟩ := key
  obtain ⟨value', hread, hjson, htext⟩ := Literal.recovered h
  refine ⟨⟨name, value'⟩, ?_, ?_, ?_⟩
  · cases name with
    | none | some => simp [toJson, ofJson, lookup_cons, nameOf, hread]
  · simp only [toJson, hjson]
  · simp only [text, htext]

namespace Segment

/-- The text of a segment shows its identifier and the texts of its keys. -/
theorem text_congr {s t : Segment} (hidentifier : s.identifier = t.identifier)
    (hkeys : s.keys.map (List.map KeyValue.text) = t.keys.map (List.map KeyValue.text)) :
    s.text = t.text := by
  obtain ⟨i, k, keys⟩ := s
  obtain ⟨j, l, others⟩ := t
  cases hidentifier
  cases keys with
  | none =>
    cases others with
    | none => rfl
    | some others => cases hkeys
  | some keys =>
    cases others with
    | none => cases hkeys
    | some others =>
      have htexts := Option.some.inj hkeys
      cases keys with
      | nil =>
        rw [List.map_nil, List.nil_eq, List.map_eq_nil_iff] at htexts
        rw [htexts]
        rfl
      | cons key keys =>
        cases others with
        | nil => cases htexts
        | cons other others => simp only [text, htexts]

theorem recovered {s : Segment} (h : ∀ d, Literal.decimal d ∈ s.literals → d.KeepsText) :
    Recovered ofJson toJson text s := by
  obtain ⟨identifier, kind, keys⟩ := s
  cases keys with
  | none => exact ⟨ofIdentifier identifier, rfl, rfl, rfl⟩
  | some keys =>
    have hkeys : ∀ key ∈ keys, Recovered KeyValue.ofJson KeyValue.toJson KeyValue.text key := by
      intro key hkey
      exact KeyValue.recovered fun d hd => h d (hd ▸ List.mem_map_of_mem hkey)
    obtain ⟨keys', hread, hjson, htext⟩ := Recovered.list hkeys
    refine ⟨⟨identifier, kindOf identifier, some keys'⟩, ?_, ?_, ?_⟩
    · simp [toJson, ofJson, lookup_cons, stringField_of_lookup, keysOf, hread, ofIdentifier,
        Except.map]
    · simp only [toJson, hjson]
    · exact text_congr rfl (congrArg some htext)

/-- Whether a segment has keys is to be seen in its document. -/
theorem isSome_keys_eq (s : Segment) :
    s.keys.isSome = (match s.toJson with | .object _ => true | _ => false) := by
  obtain ⟨identifier, kind, keys⟩ := s
  cases keys <;> rfl

end Segment

namespace Path

theorem join_pieces (text : List Char) : join ['/'] (pieces text) = text := by
  induction text with
  | nil => rfl
  | cons c rest ih =>
    rw [pieces]
    split
    · rename_i hc
      have hne : pieces rest ≠ [] := pieces_eq_splitOn rest ▸ List.splitOn_ne_nil '/' rest
      obtain ⟨piece, more, hpieces⟩ := List.exists_cons_of_ne_nil hne
      rw [hpieces] at ih ⊢
      rw [join, ih, hc]
      rfl
    · split
      · rename_i piece more hpieces
        rw [hpieces] at ih
        cases more with
        | nil => exact congrArg (List.cons c) ih
        | cons next more => exact congrArg (List.cons c) ih
      · rename_i hpieces
        rw [hpieces] at ih
        exact congrArg (List.cons c) ih

theorem text_eq_display {p : Path} (hkeyed : ¬p.isKeyed = true) : p.text = p.display := by
  have hkeys := keys_eq_none_of_not_keyed hkeyed
  rw [text, display, identifiers, List.map_map]
  congr 1
  refine List.map_congr_left fun s hs => ?_
  rw [Segment.text, hkeys s hs]
  rfl

/-- A path without keys is read as one that shows the same with its slashes. -/
theorem stable_of_not_keyed {p q : Path} (hkeyed : ¬p.isKeyed = true)
    (hread : ofJson p.toJson = .ok (some q)) : q.toJson = p.toJson ∧ q.text = p.text := by
  rw [toJson, if_neg hkeyed, stringOf, ofJson, ofString_eq_some_iff, String.toList_ofList] at hread
  obtain ⟨-, hsegments⟩ := hread
  have hkeyed' : ¬q.isKeyed = true := by
    simp [isKeyed, hsegments, Segment.ofIdentifier]
  have hpieces : q.identifiers.map String.toList = pieces p.display := by
    simp [identifiers, hsegments, Segment.ofIdentifier, Function.comp_def]
  have hdisplay : q.display = p.display := by
    rw [display, hpieces, join_pieces]
  rw [toJson, toJson, if_neg hkeyed, if_neg hkeyed', text_eq_display hkeyed,
    text_eq_display hkeyed', hdisplay]
  exact ⟨rfl, rfl⟩

theorem isKeyed_eq (p : Path) :
    p.isKeyed = (p.segments.map Segment.toJson).any fun v =>
      match v with | .object _ => true | _ => false := by
  simp only [isKeyed, List.any_map, Function.comp_def, Segment.isSome_keys_eq]

theorem stable_of_keyed {p q : Path} (hkeyed : p.isKeyed = true)
    (h : ∀ d, Literal.decimal d ∈ p.literals → d.KeepsText)
    (hread : ofJson p.toJson = .ok (some q)) : q.toJson = p.toJson ∧ q.text = p.text := by
  have hsegments : ∀ s ∈ p.segments, Stable Segment.ofJson Segment.toJson Segment.text s := by
    intro s hs
    exact (Segment.recovered fun d hd => h d (List.mem_flatMap_of_mem hs hd)).stable
  rw [toJson, if_pos hkeyed, ofJson_array_eq_some_iff] at hread
  obtain ⟨hjson, htext⟩ := Stable.list hsegments hread
  have hkeyed' : q.isKeyed = true := by
    rw [isKeyed_eq, hjson, ← isKeyed_eq, hkeyed]
  rw [toJson, toJson, if_pos hkeyed, if_pos hkeyed', text, text, hjson, htext]
  exact ⟨rfl, rfl⟩

/-- Whatever path is read for a path is written as it is. -/
theorem stable {p q : Path} (h : ∀ d, Literal.decimal d ∈ p.literals → d.KeepsText)
    (hread : ofJson p.toJson = .ok (some q)) : q.toJson = p.toJson ∧ q.text = p.text := by
  by_cases hkeyed : p.isKeyed = true
  · exact stable_of_keyed hkeyed h hread
  · exact stable_of_not_keyed hkeyed hread

end Path

namespace Aggregation

/-- The count of a group is written without its expression. -/
def text (grammar : Grammar) (item : Aggregation) : List Char :=
  match item.method with
  | .count => "$count as ".toList ++ item.name.toList
  | method =>
      item.expression.text grammar ++ " with ".toList ++ method.keyword.toList ++
        " as ".toList ++ item.name.toList

end Aggregation

namespace Expr

theorem texts_eq_map (grammar : Grammar) (es : List Expr) :
    texts grammar es = es.map (text grammar) :=
  eq_map_of_cons rfl (fun _ _ => rfl) es

theorem aggregationTexts_eq_map (grammar : Grammar) (items : List Aggregation) :
    aggregationTexts grammar items = items.map (Aggregation.text grammar) := by
  refine eq_map_of_cons rfl (fun ⟨e, method, name⟩ rest => ?_) items
  cases method <;> rfl

/-- Whether an expression is a binary operation is to be seen in its document. -/
theorem isBinary_eq (e : Expr) :
    e.isBinary =
      (match e.toJson with | .object fields => (fields.lookup "binary").isSome | _ => false) := by
  cases e <;> rfl

theorem operandText_congr {a b : Expr} (hjson : a.toJson = b.toJson) {s t : List Char}
    (htext : s = t) : operandText a s = operandText b t := by
  rw [operandText, operandText, isBinary_eq, hjson, ← isBinary_eq, htext]

section Recovery

variable {grammar : Grammar}

theorem recovered_list {es : List Expr}
    (h : ∀ e ∈ es, Recovered ofJson toJson (text grammar) e) :
    ∃ es', listOfJson (.array (toJsons es)) = .ok es' ∧ toJsons es' = toJsons es ∧
      texts grammar es' = texts grammar es := by
  simp only [listOfJson, toJsons_eq_map, ofItems_eq_mapM, texts_eq_map]
  exact Recovered.list h

theorem recovered_aggregation {item : Aggregation}
    (h : Recovered ofJson toJson (text grammar) item.expression) :
    Recovered aggregationOfJson Aggregation.toJson (Aggregation.text grammar) item := by
  obtain ⟨e, method, name⟩ := item
  obtain ⟨e', hread, hjson, htext⟩ := h
  refine ⟨⟨e', method, name⟩, ?_, ?_, ?_⟩
  · simp [aggregationOfJson, Aggregation.toJson, ofField_eq, lookup_cons, stringField_of_lookup,
      AggregationMethod.ofKeyword?_keyword, hread]
  · simp only [Aggregation.toJson, hjson]
  · simp only [Aggregation.text, htext]

/-- An expression is always read back, and as one that is written alike. -/
theorem recovered {e : Expr} (h : ∀ token ∈ e.tokens, token.KeepsDecimals) :
    Recovered ofJson toJson (text grammar) e := by
  induction e using Expr.induction with
  | literal l =>
    have hl : ∀ d, l = .decimal d → d.KeepsText := by
      intro d hd
      exact h (.expr (.literal l)) List.mem_cons_self d (hd ▸ List.mem_singleton_self l)
    obtain ⟨l', hread, hjson, htext⟩ := Literal.recovered hl
    refine ⟨.literal l', by simp [toJson, ofJson, hread, Except.map], ?_, htext⟩
    simp only [toJson, hjson]
  | property name =>
    refine ⟨.property name, ?_, rfl, rfl⟩
    simp [toJson, ofJson, lookup_cons, ofField_eq, absentOr, stringField_of_lookup]
  | member parent name ih =>
    obtain ⟨-, hbelow⟩ := forall_tokens_iff.mp h
    obtain ⟨parent', hread, hjson, htext⟩ := ih (hbelow parent List.mem_cons_self)
    refine ⟨.member parent' name, ofJson_member hread, ?_, ?_⟩
    · simp only [toJson, hjson]
    · exact congrArg (· ++ '/' :: name.toList) htext
  | binary op left right ihl ihr =>
    obtain ⟨-, hbelow⟩ := forall_tokens_iff.mp h
    obtain ⟨left', hl, hjsonl, htextl⟩ := ihl (hbelow left List.mem_cons_self)
    obtain ⟨right', hr, hjsonr, htextr⟩ :=
      ihr (hbelow right (List.mem_cons_of_mem left List.mem_cons_self))
    refine ⟨.binary op left' right', ofJson_binary hl hr, ?_, ?_⟩
    · simp only [toJson, hjsonl, hjsonr]
    · exact congrArg₂ (fun l r => l ++ ' ' :: binaryWord grammar op ++ ' ' :: r)
        (operandText_congr hjsonl htextl) (operandText_congr hjsonr htextr)
  | unary op operand ih =>
    obtain ⟨-, hbelow⟩ := forall_tokens_iff.mp h
    obtain ⟨operand', hread, hjson, htext⟩ := ih (hbelow operand List.mem_cons_self)
    refine ⟨.unary op operand', ofJson_unary hread, ?_, ?_⟩
    · simp only [toJson, hjson]
    · exact congrArg (unaryLead grammar op ++ ·) (operandText_congr hjson htext)
  | call function arguments ih =>
    obtain ⟨-, hbelow⟩ := forall_tokens_iff.mp h
    obtain ⟨arguments', hread, hjson, htext⟩ := recovered_list fun e he => ih e he (hbelow e he)
    refine ⟨.call function arguments', ofJson_call hread, ?_, ?_⟩
    · simp only [toJson, hjson]
    · exact congrArg (fun texts => function.toList ++ parenthesized (join [','] texts)) htext
  | star => exact ⟨.star, rfl, rfl, rfl⟩
  | search term => exact ⟨.search term, ofJson_search, rfl, rfl⟩
  | aggregate items ih =>
    obtain ⟨-, hbelow⟩ := forall_tokens_iff.mp h
    obtain ⟨items', hread, hjson, htext⟩ := Recovered.list fun item hitem =>
      recovered_aggregation (ih item hitem (hbelow _ (List.mem_map_of_mem hitem)))
    refine ⟨.aggregate items', ?_, ?_, ?_⟩
    · rw [toJson, aggregationsToJson_eq_map]
      exact ofJson_aggregate hread
    · simp only [toJson, aggregationsToJson_eq_map, hjson]
    · rw [← aggregationTexts_eq_map, ← aggregationTexts_eq_map] at htext
      exact congrArg (fun texts => "aggregate".toList ++ parenthesized (join [','] texts)) htext
  | groupBy properties ih =>
    obtain ⟨-, hbelow⟩ := forall_tokens_iff.mp h
    obtain ⟨properties', hread, hjson, htext⟩ := recovered_list fun e he => ih e he (hbelow e he)
    refine ⟨.groupBy properties', ofJson_groupBy hread, ?_, ?_⟩
    · simp only [toJson, hjson]
    · exact congrArg (fun texts =>
        "groupby".toList ++ parenthesized (parenthesized (join [','] texts))) htext
  | groupByThen properties child ih ihc =>
    obtain ⟨hbelow, hchild⟩ := List.forall_mem_append.mp (forall_tokens_iff.mp h).2
    obtain ⟨properties', hread, hjson, htext⟩ := recovered_list fun e he => ih e he (hbelow e he)
    obtain ⟨child', hc, hjsonc, htextc⟩ := ihc (hchild child List.mem_cons_self)
    refine ⟨.groupByThen properties' child', ofJson_groupByThen hread hc, ?_, ?_⟩
    · simp only [toJson, hjson, hjsonc]
    · exact congrArg₂ (fun texts last => "groupby".toList ++
        parenthesized (parenthesized (join [','] texts) ++ ',' :: last)) htext htextc

end Recovery

end Expr

end ExpandTree
