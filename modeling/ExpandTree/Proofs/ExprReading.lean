import ExpandTree.Proofs.PathRereading

/-!
What reading an expression comes down to. The first of eight fields decides what an object
describes; from there an object is read as an expression exactly when each part of it is read from
the field of its own.
-/
namespace ExpandTree

open Json (Fields)

namespace Json

/-- The items of an array that may be absent, and then has none. -/
def ItemsOf (v : Option Json) (items : List Json) : Prop :=
  v = none ∧ items = [] ∨ v = some (.array items)

/-- The fields that decide what an object describes, those that come first before the others. -/
def leadingKeys : List String :=
  ["literal", "property", "binary", "unary", "call", "search", "aggregate", "groupby"]

/-- No field is present that would decide before this one. -/
def Leads (key : String) (fields : Fields) : Prop :=
  ∀ earlier ∈ leadingKeys.takeWhile (· ≠ key), fields.lookup earlier = none

end Json

open Json (ItemsOf Leads leadingKeys)

section Fields

variable {fields : Fields}

theorem stringField_eq_ok_iff {key s : String} :
    stringField key fields = .ok s ↔ fields.lookup key = some (.string s) := by
  unfold stringField requiredField
  cases fields.lookup key with
  | none => simp [bind, Except.bind]
  | some v => cases v <;> simp [throw, throwThe, MonadExceptOf.throw]

theorem present_map_eq_ok_iff {α : Type} {key : String} {v : Option Json} {read : Json → Reads α}
    {a : α} : present key (v.map read) = .ok a ↔ ∃ w, v = some w ∧ read w = .ok a := by
  cases v <;> simp [present]

/-- An optional array is read item by item; an absent one reads as no items. -/
theorem exists_optionList_iff {ε α : Type} {list : Json → Except ε (List α)}
    {read : Json → Except ε α}
    (hlist : ∀ {v as}, list v = .ok as ↔ ∃ items, v = .array items ∧ items.mapM read = .ok as)
    {v : Option Json} {as : List α} :
    (∃ o, v.mapM list = .ok o ∧ o.getD [] = as) ↔
      ∃ items, ItemsOf v items ∧ items.mapM read = .ok as := by
  constructor
  · intro h
    obtain ⟨o, ho, rfl⟩ := h
    cases v with
    | none =>
      cases ho
      exact ⟨[], Or.inl ⟨rfl, rfl⟩, rfl⟩
    | some v =>
      obtain ⟨as, has, rfl⟩ := map_eq_ok_iff.mp ho
      obtain ⟨items, rfl, hitems⟩ := hlist.mp has
      exact ⟨items, Or.inr rfl, hitems⟩
  · intro h
    obtain ⟨items, hv | rfl, hread⟩ := h
    · obtain ⟨rfl, rfl⟩ := hv
      cases hread
      exact ⟨none, rfl, rfl⟩
    · refine ⟨some as, ?_, rfl⟩
      rw [optionMapM_some, hlist.mpr ⟨items, rfl, hread⟩]
      rfl

/-- Unless all keys are absent, one of them is present and those before it are not. -/
theorem absent_or_exists_first (fields : Fields) (keys : List String) :
    (∀ key ∈ keys, fields.lookup key = none) ∨
      ∃ key ∈ keys, (∀ earlier ∈ keys.takeWhile (· ≠ key), fields.lookup earlier = none) ∧
        ∃ v, fields.lookup key = some v := by
  induction keys with
  | nil => exact Or.inl fun key hkey => absurd hkey List.not_mem_nil
  | cons first rest ih =>
    cases hfirst : fields.lookup first with
    | some v => exact Or.inr ⟨first, List.mem_cons_self, by simp, v, hfirst⟩
    | none =>
      rcases ih with habsent | ⟨key, hkey, habsent, v, hfield⟩
      · exact Or.inl (List.forall_mem_cons.mpr ⟨hfirst, habsent⟩)
      · have hne : first ≠ key := by
          rintro rfl
          rw [hfirst] at hfield
          cases hfield
        refine Or.inr ⟨key, List.mem_cons_of_mem first hkey, ?_, v, hfield⟩
        rw [List.takeWhile_cons_of_pos (by simpa using hne)]
        exact List.forall_mem_cons.mpr ⟨hfirst, habsent⟩

end Fields

/-- One value of an aggregate step, each part read from its field. -/
inductive Aggregation.ReadFrom (fields : Fields) : Aggregation → Prop where
  | expression {method : AggregationMethod} {v : Json} {e : Expr} {name : String} :
      fields.lookup "with" = some (.string method.keyword) → fields.lookup "expr" = some v →
      Expr.ofJson v = .ok e → fields.lookup "as" = some (.string name) →
      ReadFrom fields ⟨e, method, name⟩
  | members {name : String} :
      fields.lookup "with" = some (.string AggregationMethod.count.keyword) →
      fields.lookup "expr" = none → fields.lookup "as" = some (.string name) →
      ReadFrom fields ⟨Expr.groupCount, .count, name⟩

namespace Expr

/-- An expression, each part read from its field. -/
inductive ReadFrom (fields : Fields) : Expr → Prop where
  | literal {v : Json} {l : Literal} : fields.lookup "literal" = some v → Literal.ofJson v = .ok l →
      ReadFrom fields (.literal l)
  | property {name : String} : Leads "property" fields →
      fields.lookup "property" = some (.string name) → fields.lookup "parent" = none →
      ReadFrom fields (.property name)
  | member {name : String} {v : Json} {parent : Expr} : Leads "property" fields →
      fields.lookup "property" = some (.string name) → fields.lookup "parent" = some v →
      ofJson v = .ok parent → ReadFrom fields (.member parent name)
  | binary {op : BinaryOp} {v w : Json} {left right : Expr} : Leads "binary" fields →
      fields.lookup "binary" = some (.string op.keyword) → fields.lookup "left" = some v →
      ofJson v = .ok left → fields.lookup "right" = some w → ofJson w = .ok right →
      ReadFrom fields (.binary op left right)
  | unary {op : UnaryOp} {v : Json} {operand : Expr} : Leads "unary" fields →
      fields.lookup "unary" = some (.string op.keyword) → fields.lookup "operand" = some v →
      ofJson v = .ok operand → ReadFrom fields (.unary op operand)
  | call {function : String} {items : List Json} {arguments : List Expr} : Leads "call" fields →
      fields.lookup "call" = some (.string function) → ItemsOf (fields.lookup "args") items →
      items.mapM ofJson = .ok arguments → ReadFrom fields (.call function arguments)
  | search {term : String} : Leads "search" fields →
      fields.lookup "search" = some (.string term) → ReadFrom fields (.search term)
  | aggregate {items : List Json} {values : List Aggregation} : Leads "aggregate" fields →
      fields.lookup "aggregate" = some (.array items) →
      items.mapM aggregationOfJson = .ok values → ReadFrom fields (.aggregate values)
  | groupBy {items : List Json} {properties : List Expr} : Leads "groupby" fields →
      fields.lookup "groupby" = some (.array items) → items.mapM ofJson = .ok properties →
      fields.lookup "then" = none → ReadFrom fields (.groupBy properties)
  | groupByThen {items : List Json} {properties : List Expr} {v : Json} {child : Expr} :
      Leads "groupby" fields → fields.lookup "groupby" = some (.array items) →
      items.mapM ofJson = .ok properties → fields.lookup "then" = some v → ofJson v = .ok child →
      ReadFrom fields (.groupByThen properties child)

theorem listOfJson_eq_ok_iff {v : Json} {es : List Expr} :
    listOfJson v = .ok es ↔ ∃ items, v = .array items ∧ items.mapM ofJson = .ok es := by
  cases v <;> simp [listOfJson, ofItems_eq_mapM]

theorem aggregateOfJson_eq_ok_iff {v : Json} {values : List Aggregation} :
    aggregateOfJson v = .ok values ↔
      ∃ items, v = .array items ∧ items.mapM aggregationOfJson = .ok values := by
  cases v <;> simp [aggregateOfJson, aggregateOfItems_eq_mapM]

theorem aggregationOfJson_eq_ok_iff {v : Json} {value : Aggregation} :
    aggregationOfJson v = .ok value ↔
      ∃ fields, v = .object fields ∧ Aggregation.ReadFrom fields value := by
  cases v with
  | null | boolean | number | string | array => simp [aggregationOfJson]
  | object fields =>
    simp only [Json.object.injEq, exists_eq_left']
    constructor
    · intro h
      obtain ⟨keyword, hwith, h⟩ := bind_eq_ok_iff.mp h
      rw [stringField_eq_ok_iff] at hwith
      split at h
      · cases h
      rename_i method hmethod
      obtain rfl : method.keyword = keyword := AggregationMethod.keyword_of_ofKeyword? hmethod
      rw [ofField_eq] at h
      cases hfield : fields.lookup "expr" with
      | some v =>
        rw [hfield, Option.map_some] at h
        obtain ⟨e, hread, h⟩ := bind_eq_ok_iff.mp h
        obtain ⟨name, has, h⟩ := bind_eq_ok_iff.mp h
        cases h
        exact .expression hwith hfield hread (stringField_eq_ok_iff.mp has)
      | none =>
        simp only [hfield, Option.map_none] at h
        split at h
        · rename_i hcount
          subst hcount
          obtain ⟨e, he, h⟩ := bind_eq_ok_iff.mp h
          obtain ⟨name, has, h⟩ := bind_eq_ok_iff.mp h
          cases he
          cases h
          exact .members hwith hfield (stringField_eq_ok_iff.mp has)
        · cases h
    · intro h
      cases h with
      | expression hwith hfield hread has =>
        simp [aggregationOfJson, ofField_eq, stringField_of_lookup hwith,
          AggregationMethod.ofKeyword?_keyword, hfield, hread, stringField_of_lookup has]
      | members hwith hfield has =>
        simp [aggregationOfJson, ofField_eq, stringField_of_lookup hwith,
          AggregationMethod.ofKeyword?_keyword, hfield, stringField_of_lookup has]

section Objects

variable {fields : Fields} {v : Json} {e : Expr}

-- The first field that decides leaves one way to read an object, told here by plain lookups.

theorem ofJson_of_literal (hfield : fields.lookup "literal" = some v) :
    ofJson (.object fields) = (Literal.ofJson v).map .literal := by
  simp [ofJson, hfield]

theorem ofJson_of_property (hlead : Leads "property" fields)
    (hfield : fields.lookup "property" = some v) :
    ofJson (.object fields) = do
      let parent ← (fields.lookup "parent").mapM ofJson
      let name ← stringField "property" fields
      return parent.elim (.property name) (.member · name) := by
  have habsent : ∀ key ∈ ["literal"], fields.lookup key = none := hlead
  simp only [List.forall_mem_cons] at habsent
  simp only [ofJson, habsent, hfield, Option.isSome_some, if_true, ofField_eq, absentOr_map]
  refine bind_congr fun parent => ?_
  cases parent <;> rfl

theorem ofJson_of_binary (hlead : Leads "binary" fields)
    (hfield : fields.lookup "binary" = some v) :
    ofJson (.object fields) = (do
      let keyword ← stringField "binary" fields
      Option.elim (BinaryOp.ofKeyword? keyword) (throw (.unknownBinaryOp keyword)) fun op => do
        let left ← present "left" ((fields.lookup "left").map ofJson)
        let right ← present "right" ((fields.lookup "right").map ofJson)
        return .binary op left right) := by
  have habsent : ∀ key ∈ ["literal", "property"], fields.lookup key = none := hlead
  simp only [List.forall_mem_cons] at habsent
  simp only [ofJson, habsent, hfield, Option.isSome_none, Option.isSome_some, Bool.false_eq_true,
    if_false, if_true, ofField_eq]
  refine bind_congr fun keyword => ?_
  cases BinaryOp.ofKeyword? keyword <;> rfl

theorem ofJson_of_unary (hlead : Leads "unary" fields) (hfield : fields.lookup "unary" = some v) :
    ofJson (.object fields) = (do
      let keyword ← stringField "unary" fields
      Option.elim (UnaryOp.ofKeyword? keyword) (throw (.unknownUnaryOp keyword)) fun op => do
        let operand ← present "operand" ((fields.lookup "operand").map ofJson)
        return .unary op operand) := by
  have habsent : ∀ key ∈ ["literal", "property", "binary"], fields.lookup key = none := hlead
  simp only [List.forall_mem_cons] at habsent
  simp only [ofJson, habsent, hfield, Option.isSome_none, Option.isSome_some, Bool.false_eq_true,
    if_false, if_true, ofField_eq]
  refine bind_congr fun keyword => ?_
  cases UnaryOp.ofKeyword? keyword <;> rfl

theorem ofJson_of_call (hlead : Leads "call" fields) (hfield : fields.lookup "call" = some v) :
    ofJson (.object fields) = do
      let arguments ← (fields.lookup "args").mapM listOfJson
      let function ← stringField "call" fields
      return .call function (arguments.getD []) := by
  have habsent : ∀ key ∈ ["literal", "property", "binary", "unary"], fields.lookup key = none :=
    hlead
  simp only [List.forall_mem_cons] at habsent
  simp [ofJson, habsent, hfield, listOfField_eq, absentOr_map]

theorem ofJson_of_search (hlead : Leads "search" fields)
    (hfield : fields.lookup "search" = some v) :
    ofJson (.object fields) = do return .search (← stringField "search" fields) := by
  have habsent : ∀ key ∈ ["literal", "property", "binary", "unary", "call"],
      fields.lookup key = none := hlead
  simp only [List.forall_mem_cons] at habsent
  simp [ofJson, habsent, hfield]

theorem ofJson_of_aggregate (hlead : Leads "aggregate" fields)
    (hfield : fields.lookup "aggregate" = some v) :
    ofJson (.object fields) = (aggregateOfJson v).map .aggregate := by
  have habsent : ∀ key ∈ ["literal", "property", "binary", "unary", "call", "search"],
      fields.lookup key = none := hlead
  simp only [List.forall_mem_cons] at habsent
  simp [ofJson, habsent, hfield, aggregateOfField_eq]

theorem ofJson_of_groupBy (hlead : Leads "groupby" fields)
    (hfield : fields.lookup "groupby" = some v) :
    ofJson (.object fields) = do
      let child ← (fields.lookup "then").mapM ofJson
      let properties ← listOfJson v
      return child.elim (.groupBy properties) (.groupByThen properties) := by
  have habsent : ∀ key ∈ ["literal", "property", "binary", "unary", "call", "search", "aggregate"],
      fields.lookup key = none := hlead
  simp only [List.forall_mem_cons] at habsent
  simp only [ofJson, habsent, hfield, Option.isSome_none, Bool.false_eq_true, if_false,
    Option.map_none, Option.map_some, aggregateOfField_eq, listOfField_eq, ofField_eq, absentOr_map]
  refine bind_congr fun child => ?_
  cases child <;> rfl

theorem readFrom_literal (hfield : fields.lookup "literal" = some v)
    (h : ofJson (.object fields) = .ok e) : ReadFrom fields e := by
  rw [ofJson_of_literal hfield] at h
  obtain ⟨l, hread, rfl⟩ := map_eq_ok_iff.mp h
  exact .literal hfield hread

theorem readFrom_property (hlead : Leads "property" fields)
    (hfield : fields.lookup "property" = some v)
    (h : ofJson (.object fields) = .ok e) : ReadFrom fields e := by
  rw [ofJson_of_property hlead hfield] at h
  obtain ⟨parent, hparent, h⟩ := bind_eq_ok_iff.mp h
  obtain ⟨name, hname, h⟩ := bind_eq_ok_iff.mp h
  rw [stringField_eq_ok_iff] at hname
  cases hfield : fields.lookup "parent" with
  | none =>
    rw [hfield] at hparent
    cases hparent
    cases h
    exact .property hlead hname hfield
  | some v =>
    rw [hfield, optionMapM_some] at hparent
    obtain ⟨parent, hread, rfl⟩ := map_eq_ok_iff.mp hparent
    cases h
    exact .member hlead hname hfield hread

theorem readFrom_binary (hlead : Leads "binary" fields) (hfield : fields.lookup "binary" = some v)
    (h : ofJson (.object fields) = .ok e) : ReadFrom fields e := by
  rw [ofJson_of_binary hlead hfield] at h
  obtain ⟨keyword, hkeyword, h⟩ := bind_eq_ok_iff.mp h
  cases hop : BinaryOp.ofKeyword? keyword with
  | none =>
    rw [hop] at h
    cases h
  | some op =>
    obtain rfl : op.keyword = keyword := BinaryOp.keyword_of_ofKeyword? hop
    simp only [hop, Option.elim_some, bind_eq_ok_iff, present_map_eq_ok_iff] at h
    obtain ⟨left, ⟨v, hleft, hv⟩, right, ⟨w, hright, hw⟩, h⟩ := h
    cases h
    exact .binary hlead (stringField_eq_ok_iff.mp hkeyword) hleft hv hright hw

theorem readFrom_unary (hlead : Leads "unary" fields) (hfield : fields.lookup "unary" = some v)
    (h : ofJson (.object fields) = .ok e) : ReadFrom fields e := by
  rw [ofJson_of_unary hlead hfield] at h
  obtain ⟨keyword, hkeyword, h⟩ := bind_eq_ok_iff.mp h
  cases hop : UnaryOp.ofKeyword? keyword with
  | none =>
    rw [hop] at h
    cases h
  | some op =>
    obtain rfl : op.keyword = keyword := UnaryOp.keyword_of_ofKeyword? hop
    simp only [hop, Option.elim_some, bind_eq_ok_iff, present_map_eq_ok_iff] at h
    obtain ⟨operand, ⟨v, hoperand, hv⟩, h⟩ := h
    cases h
    exact .unary hlead (stringField_eq_ok_iff.mp hkeyword) hoperand hv

theorem readFrom_call (hlead : Leads "call" fields) (hfield : fields.lookup "call" = some v)
    (h : ofJson (.object fields) = .ok e) : ReadFrom fields e := by
  rw [ofJson_of_call hlead hfield] at h
  obtain ⟨arguments, harguments, h⟩ := bind_eq_ok_iff.mp h
  obtain ⟨function, hfunction, h⟩ := bind_eq_ok_iff.mp h
  cases h
  obtain ⟨items, hitems, hread⟩ :=
    (exists_optionList_iff listOfJson_eq_ok_iff).mp ⟨arguments, harguments, rfl⟩
  exact .call hlead (stringField_eq_ok_iff.mp hfunction) hitems hread

theorem readFrom_search (hlead : Leads "search" fields) (hfield : fields.lookup "search" = some v)
    (h : ofJson (.object fields) = .ok e) : ReadFrom fields e := by
  rw [ofJson_of_search hlead hfield] at h
  obtain ⟨term, hterm, h⟩ := bind_eq_ok_iff.mp h
  cases h
  exact .search hlead (stringField_eq_ok_iff.mp hterm)

theorem readFrom_aggregate (hlead : Leads "aggregate" fields)
    (hfield : fields.lookup "aggregate" = some v) (h : ofJson (.object fields) = .ok e) :
    ReadFrom fields e := by
  rw [ofJson_of_aggregate hlead hfield] at h
  obtain ⟨values, hread, rfl⟩ := map_eq_ok_iff.mp h
  obtain ⟨items, rfl, hitems⟩ := aggregateOfJson_eq_ok_iff.mp hread
  exact .aggregate hlead hfield hitems

theorem readFrom_groupBy (hlead : Leads "groupby" fields)
    (hfield : fields.lookup "groupby" = some v) (h : ofJson (.object fields) = .ok e) :
    ReadFrom fields e := by
  rw [ofJson_of_groupBy hlead hfield] at h
  simp only [bind_eq_ok_iff, listOfJson_eq_ok_iff] at h
  obtain ⟨child, hchild, properties, ⟨items, rfl, hitems⟩, h⟩ := h
  cases hthen : fields.lookup "then" with
  | none =>
    rw [hthen] at hchild
    cases hchild
    cases h
    exact .groupBy hlead hfield hitems hthen
  | some w =>
    rw [hthen, optionMapM_some] at hchild
    obtain ⟨child, hread, rfl⟩ := map_eq_ok_iff.mp hchild
    cases h
    exact .groupByThen hlead hfield hitems hthen hread

theorem not_read_of_absent (habsent : ∀ key ∈ leadingKeys, fields.lookup key = none) :
    ofJson (.object fields) ≠ .ok e := by
  simp only [leadingKeys, List.forall_mem_cons] at habsent
  simp [ofJson, habsent, aggregateOfField_eq, listOfField_eq]

theorem readFrom_of_ofJson (h : ofJson (.object fields) = .ok e) : ReadFrom fields e := by
  rcases absent_or_exists_first fields leadingKeys with habsent | ⟨key, hkey, hlead, v, hfield⟩
  · exact absurd h (not_read_of_absent habsent)
  · simp only [leadingKeys, List.mem_cons, List.not_mem_nil, or_false] at hkey
    rcases hkey with rfl | rfl | rfl | rfl | rfl | rfl | rfl | rfl
    · exact readFrom_literal hfield h
    · exact readFrom_property hlead hfield h
    · exact readFrom_binary hlead hfield h
    · exact readFrom_unary hlead hfield h
    · exact readFrom_call hlead hfield h
    · exact readFrom_search hlead hfield h
    · exact readFrom_aggregate hlead hfield h
    · exact readFrom_groupBy hlead hfield h

theorem ofJson_of_readFrom (h : ReadFrom fields e) : ofJson (.object fields) = .ok e := by
  cases h with
  | literal hfield hread =>
    rw [ofJson_of_literal hfield, hread]
    rfl
  | property hlead hname hparent =>
    rw [ofJson_of_property hlead hname, hparent, stringField_of_lookup hname]
    rfl
  | member hlead hname hparent hread =>
    rw [ofJson_of_property hlead hname, hparent, optionMapM_some, hread,
      stringField_of_lookup hname]
    rfl
  | binary hlead hop hleft hv hright hw =>
    rw [ofJson_of_binary hlead hop, stringField_of_lookup hop, ok_bind,
      BinaryOp.ofKeyword?_keyword]
    simp [present, hleft, hv, hright, hw]
  | unary hlead hop hoperand hv =>
    rw [ofJson_of_unary hlead hop, stringField_of_lookup hop, ok_bind, UnaryOp.ofKeyword?_keyword]
    simp [present, hoperand, hv]
  | call hlead hfunction hitems hread =>
    obtain ⟨arguments, hoption, rfl⟩ :=
      (exists_optionList_iff listOfJson_eq_ok_iff).mpr ⟨_, hitems, hread⟩
    rw [ofJson_of_call hlead hfunction, hoption, stringField_of_lookup hfunction]
    rfl
  | search hlead hterm =>
    rw [ofJson_of_search hlead hterm, stringField_of_lookup hterm]
    rfl
  | aggregate hlead hitems hread =>
    rw [ofJson_of_aggregate hlead hitems, aggregateOfJson_eq_ok_iff.mpr ⟨_, rfl, hread⟩]
    rfl
  | groupBy hlead hitems hread hthen =>
    rw [ofJson_of_groupBy hlead hitems, hthen, listOfJson_eq_ok_iff.mpr ⟨_, rfl, hread⟩]
    rfl
  | groupByThen hlead hitems hread hthen hchild =>
    rw [ofJson_of_groupBy hlead hitems, hthen, optionMapM_some, hchild,
      listOfJson_eq_ok_iff.mpr ⟨_, rfl, hread⟩]
    rfl

/-- An object is an expression exactly when the parts that its first deciding field asks for are
read. -/
theorem ofJson_object_eq_ok_iff : ofJson (.object fields) = .ok e ↔ ReadFrom fields e :=
  ⟨readFrom_of_ofJson, ofJson_of_readFrom⟩

end Objects

end Expr

end ExpandTree
