import ExpandTree.Proofs.Grammar
import ExpandTree.Proofs.TermReading

/-!
A document is read exactly when it has the form that the grammar says: nothing outside the grammar
is accepted and nothing inside it is refused. What is read is seen to be of the form by induction on
the result, and what is of the form to be read by induction on the form.
-/
namespace ExpandTree

open Json (Fields)

section Leaves

variable {v : Json}

theorem Literal.exists_ofFields_iff {fields : Fields} :
    (∃ l, ofFields fields = .ok l) ↔ (Json.object fields).IsLiteral := by
  cases hdouble : fields.lookup "double" with
  | some w =>
    simp only [ofFields, Json.IsLiteral, Json.IsTextOf, hdouble, bind_eq_ok_iff,
      stringField_eq_ok_iff, Option.some.injEq]
    constructor
    · intro h
      obtain ⟨l, s, rfl, h⟩ := h
      split at h
      · rename_i d hd
        exact ⟨s, d, rfl, hd⟩
      · cases h
    · intro h
      obtain ⟨s, d, rfl, hd⟩ := h
      exact ⟨.double d, s, rfl, by rw [hd]; rfl⟩
  | none =>
    simp only [ofFields, Json.IsLiteral, Json.IsTextOf, hdouble, bind_eq_ok_iff,
      stringField_eq_ok_iff]
    constructor
    · intro h
      obtain ⟨l, s, hs, h⟩ := h
      split at h
      · rename_i d hd
        exact ⟨_, hs, s, d, rfl, hd⟩
      · cases h
    · intro h
      obtain ⟨_, hs, s, d, rfl, hd⟩ := h
      exact ⟨.decimal d, s, hs, by rw [hd]; rfl⟩

theorem Literal.exists_ofJson_iff : (∃ l, ofJson v = .ok l) ↔ v.IsLiteral := by
  cases v with
  | null => exact ⟨fun _ => trivial, fun _ => ⟨.null, rfl⟩⟩
  | boolean b => exact ⟨fun _ => trivial, fun _ => ⟨.boolean b, rfl⟩⟩
  | string s => exact ⟨fun _ => trivial, fun _ => ⟨.string s, rfl⟩⟩
  | number n =>
    refine ⟨fun _ => trivial, fun _ => ?_⟩
    cases hint : n.int64? with
    | some i => exact ⟨.int64 i, by rw [ofJson, hint]⟩
    | none => exact ⟨.double n.toDouble, by rw [ofJson, hint]⟩
  | object fields => exact exists_ofFields_iff
  | array items => simp [ofJson, Json.IsLiteral]

theorem KeyValue.exists_nameOf_iff {name : Option Json} :
    (∃ n, nameOf name = .ok n) ↔ ∀ v ∈ name, v = .null ∨ ∃ s, v = .string s := by
  cases name with
  | none => simp [nameOf]
  | some v => cases v <;> simp [nameOf]

theorem KeyValue.exists_ofJson_iff : (∃ key, ofJson v = .ok key) ↔ v.IsKey := by
  cases v with
  | object fields =>
    simp only [Json.IsKey, ← exists_nameOf_iff, ← Literal.exists_ofJson_iff, ofJson,
      bind_eq_ok_iff]
    constructor
    · intro h
      obtain ⟨key, name, hname, h⟩ := h
      split at h
      · cases h
      · rename_i w hvalue
        obtain ⟨l, hl, -⟩ := bind_eq_ok_iff.mp h
        exact ⟨⟨name, hname⟩, w, hvalue, l, hl⟩
    · intro h
      obtain ⟨⟨name, hname⟩, w, hvalue, l, hl⟩ := h
      refine ⟨⟨name, l⟩, name, hname, ?_⟩
      simp [Option.mem_def.mp hvalue, hl]
  | null | boolean | number | string | array => simp [ofJson, Json.IsKey]

theorem Segment.exists_keysOf_iff {keys : Option Json} :
    (∃ o, keysOf keys = .ok o) ↔ ∀ v ∈ keys, v.IsArrayOf Json.IsKey := by
  cases keys with
  | none => simp [keysOf]
  | some v =>
    cases v with
    | array items =>
      have hitems := @exists_mapM_ok_iff _ _ _ KeyValue.ofJson items
      simp only [KeyValue.exists_ofJson_iff] at hitems
      simp [keysOf, Json.IsArrayOf, map_eq_ok_iff, ← hitems]
    | null | boolean | number | string | object => simp [keysOf, Json.IsArrayOf]

theorem Segment.exists_ofJson_iff : (∃ s, ofJson v = .ok s) ↔ v.IsSegment := by
  cases v with
  | string s => exact ⟨fun _ => trivial, fun _ => ⟨ofIdentifier s, rfl⟩⟩
  | object fields =>
    simp only [Json.IsSegment, ← exists_keysOf_iff, ofJson, bind_eq_ok_iff, stringField_eq_ok_iff]
    constructor
    · intro h
      obtain ⟨_, s, hs, keys, hkeys, -⟩ := h
      exact ⟨⟨s, hs⟩, keys, hkeys⟩
    · intro h
      obtain ⟨⟨s, hs⟩, keys, hkeys⟩ := h
      exact ⟨_, s, hs, keys, hkeys, rfl⟩
  | null | boolean | number | array => simp [ofJson, Json.IsSegment]

namespace Path

theorem exists_ofJson_iff : (∃ p, ofJson v = .ok (some p)) ↔ v.IsPath := by
  cases v with
  | string s =>
    simp only [ofJson, ofString_eq_some_iff, exists_and_left, exists_segments_eq, Json.IsPath,
      pieces_eq_splitOn]
    constructor
    · intro h
      refine ⟨?_, h.1⟩
      rintro rfl
      exact h.1 List.mem_cons_self
    · intro h
      refine ⟨h.2, ?_⟩
      simp [List.splitOn_ne_nil]
  | array items =>
    simp only [ofJson_array_eq_some_iff, Json.IsPath, ← Segment.exists_ofJson_iff,
      ← exists_mapM_ok_iff]
    constructor
    · intro h
      obtain ⟨p, hp⟩ := h
      refine ⟨?_, p.segments, hp⟩
      rintro rfl
      exact p.segments_ne_nil (List.forall₂_nil_left_iff.mp (mapM_eq_ok_iff.mp hp))
    · intro h
      obtain ⟨hne, segments, hsegments⟩ := h
      have hpath : segments ≠ [] := by
        rintro rfl
        exact hne (List.forall₂_nil_right_iff.mp (mapM_eq_ok_iff.mp hsegments))
      obtain ⟨p, rfl⟩ := exists_segments_eq.mpr hpath
      exact ⟨p, hsegments⟩
  | null | boolean | number | object => simp [ofJson, Json.IsPath]

end Path

end Leaves

namespace Expr

theorem ofJson_eq_ok_iff {v : Json} {e : Expr} :
    ofJson v = .ok e ↔
      v = .string "*" ∧ e = .star ∨ ∃ fields, v = .object fields ∧ ReadFrom fields e := by
  cases v with
  | object fields => simp [ofJson_object_eq_ok_iff]
  | string s =>
    by_cases hs : s = "*"
    · simp [ofJson, hs, eq_comm]
    · simp [ofJson, hs]
  | null | boolean | number | array => simp [ofJson]

theorem exists_readFrom {v : Json} {e : Expr} (h : ofJson v = .ok e) (hstar : e ≠ .star) :
    ∃ fields, v = .object fields ∧ ReadFrom fields e := by
  rcases ofJson_eq_ok_iff.mp h with ⟨-, he⟩ | hread
  · exact absurd he hstar
  · exact hread

end Expr

namespace Aggregation

variable {fields : Fields}

theorem isAggregation_of_readFrom {a : Aggregation} (h : ReadFrom fields a) :
    (Json.object fields).IsAggregation := by
  cases h with
  | expression hwith hexpr _ has => exact ⟨⟨_, hwith, fun hnone => by simp [hnone] at hexpr⟩, _, has⟩
  | members hwith _ has => exact ⟨⟨_, hwith, fun _ => rfl⟩, _, has⟩

theorem exists_readFrom (h : (Json.object fields).IsAggregation)
    (hread : ∀ v ∈ fields.lookup "expr", ∃ e, Expr.ofJson v = .ok e) : ∃ a, ReadFrom fields a := by
  obtain ⟨⟨method, hwith, hcount⟩, name, has⟩ := h
  cases hexpr : fields.lookup "expr" with
  | some v =>
    obtain ⟨e, he⟩ := hread v hexpr
    exact ⟨_, .expression hwith hexpr he has⟩
  | none =>
    rw [hcount hexpr] at hwith
    exact ⟨_, .members hwith hexpr has⟩

theorem isExpr_of_readFrom {a : Aggregation} (h : ReadFrom fields a)
    (hexpr : ∀ v, Expr.ofJson v = .ok a.expression → v.IsExpr) :
    ∀ v ∈ fields.lookup "expr", v.IsExpr := by
  intro v hv
  cases h with
  | expression _ hfield hread _ =>
    rw [Option.some.inj (hv.symm.trans hfield)]
    exact hexpr _ hread
  | members _ hfield _ => cases hv.symm.trans hfield

end Aggregation

namespace Expr

/-- What is read as an expression has the form of one. -/
theorem isExpr_of_ofJson {v : Json} {e : Expr} (h : ofJson v = .ok e) : v.IsExpr := by
  have hlist : ∀ {items : List Json} {es : List Expr}, items.mapM ofJson = .ok es →
      (∀ e ∈ es, ∀ {v}, ofJson v = .ok e → v.IsExpr) → ∀ v ∈ items, v.IsExpr := by
    intro items es hread hes v hv
    obtain ⟨e, he, hv⟩ := exists_mem_of_mapM hread hv
    exact hes e he hv
  induction e using Expr.induction generalizing v with
  | star =>
    rcases ofJson_eq_ok_iff.mp h with ⟨rfl, -⟩ | ⟨fields, rfl, hread⟩
    · exact .star
    · cases hread
  | literal l =>
    obtain ⟨fields, rfl, hread⟩ := exists_readFrom h (by simp)
    cases hread with
    | literal hfield hl => exact .literal hfield (Literal.exists_ofJson_iff.mp ⟨l, hl⟩)
  | property name =>
    obtain ⟨fields, rfl, hread⟩ := exists_readFrom h (by simp)
    cases hread with
    | property hlead hname hparent => exact .property hlead hname (by simp [hparent])
  | member parent name ih =>
    obtain ⟨fields, rfl, hread⟩ := exists_readFrom h (by simp)
    cases hread with
    | member hlead hname hparent hv =>
      refine .property hlead hname fun w hw => ?_
      rw [Option.some.inj (hw.symm.trans hparent)]
      exact ih hv
  | binary op left right ihleft ihright =>
    obtain ⟨fields, rfl, hread⟩ := exists_readFrom h (by simp)
    cases hread with
    | binary hlead hop hleft hv hright hw =>
      exact .binary hlead hop hleft (ihleft hv) hright (ihright hw)
  | unary op operand ih =>
    obtain ⟨fields, rfl, hread⟩ := exists_readFrom h (by simp)
    cases hread with
    | unary hlead hop hoperand hv => exact .unary hlead hop hoperand (ih hv)
  | call function arguments ih =>
    obtain ⟨fields, rfl, hread⟩ := exists_readFrom h (by simp)
    cases hread with
    | call hlead hfunction hitems harguments =>
      exact .call hlead hfunction hitems (hlist harguments ih)
  | search term =>
    obtain ⟨fields, rfl, hread⟩ := exists_readFrom h (by simp)
    cases hread with
    | search hlead hterm => exact .search hlead hterm
  | aggregate items ih =>
    obtain ⟨fields, rfl, hread⟩ := exists_readFrom h (by simp)
    cases hread with
    | aggregate hlead hitems hvalues =>
      refine .aggregate hlead hitems ?_ ?_
      · intro v hv
        obtain ⟨a, -, ha⟩ := exists_mem_of_mapM hvalues hv
        obtain ⟨fields, rfl, hread⟩ := aggregationOfJson_eq_ok_iff.mp ha
        exact Aggregation.isAggregation_of_readFrom hread
      · intro item hitem
        obtain ⟨a, hmem, ha⟩ := exists_mem_of_mapM hvalues hitem
        obtain ⟨fields, heq, hread⟩ := aggregationOfJson_eq_ok_iff.mp ha
        cases heq
        exact Aggregation.isExpr_of_readFrom hread fun v hv => ih a hmem hv
  | groupBy properties ih =>
    obtain ⟨fields, rfl, hread⟩ := exists_readFrom h (by simp)
    cases hread with
    | groupBy hlead hitems hproperties hthen =>
      exact .groupBy hlead hitems (hlist hproperties ih) (by simp [hthen])
  | groupByThen properties child ih ihchild =>
    obtain ⟨fields, rfl, hread⟩ := exists_readFrom h (by simp)
    cases hread with
    | groupByThen hlead hitems hproperties hthen hchild =>
      refine .groupBy hlead hitems (hlist hproperties ih) fun w hw => ?_
      rw [Option.some.inj (hw.symm.trans hthen)]
      exact ihchild hchild

theorem exists_ofJson_of_readFrom {fields : Fields} (h : ∃ e, ReadFrom fields e) :
    ∃ e, ofJson (.object fields) = .ok e := by
  simpa only [ofJson_object_eq_ok_iff] using h

/-- What has the form of an expression is read as one. -/
theorem exists_ofJson_of_isExpr {v : Json} (h : v.IsExpr) : ∃ e, ofJson v = .ok e := by
  induction h with
  | star => exact ⟨.star, rfl⟩
  | literal hfield hl =>
    obtain ⟨l, hread⟩ := Literal.exists_ofJson_iff.mpr hl
    exact exists_ofJson_of_readFrom ⟨_, .literal hfield hread⟩
  | @property fields name hlead hname _ ih =>
    cases hparent : fields.lookup "parent" with
    | none => exact exists_ofJson_of_readFrom ⟨_, .property hlead hname hparent⟩
    | some v =>
      obtain ⟨parent, hread⟩ := ih v hparent
      exact exists_ofJson_of_readFrom ⟨_, .member hlead hname hparent hread⟩
  | binary hlead hop hleft _ hright _ ihleft ihright =>
    obtain ⟨left, hv⟩ := ihleft
    obtain ⟨right, hw⟩ := ihright
    exact exists_ofJson_of_readFrom ⟨_, .binary hlead hop hleft hv hright hw⟩
  | unary hlead hop hoperand _ ih =>
    obtain ⟨operand, hread⟩ := ih
    exact exists_ofJson_of_readFrom ⟨_, .unary hlead hop hoperand hread⟩
  | call hlead hfunction hitems _ ih =>
    obtain ⟨arguments, hread⟩ := exists_mapM_ok_iff.mpr ih
    exact exists_ofJson_of_readFrom ⟨_, .call hlead hfunction hitems hread⟩
  | search hlead hterm => exact exists_ofJson_of_readFrom ⟨_, .search hlead hterm⟩
  | @aggregate fields items hlead hitems hshape _ ih =>
    have hvalues : ∀ item ∈ items, ∃ a, aggregationOfJson item = .ok a := by
      intro item hitem
      have haggregation := hshape item hitem
      cases item with
      | object inner =>
        obtain ⟨a, ha⟩ := Aggregation.exists_readFrom haggregation (ih inner hitem)
        exact ⟨a, aggregationOfJson_eq_ok_iff.mpr ⟨inner, rfl, ha⟩⟩
      | null | boolean | number | string | array => cases haggregation
    obtain ⟨values, hread⟩ := exists_mapM_ok_iff.mpr hvalues
    exact exists_ofJson_of_readFrom ⟨_, .aggregate hlead hitems hread⟩
  | @groupBy fields properties hlead hitems _ _ ih ihthen =>
    obtain ⟨es, hread⟩ := exists_mapM_ok_iff.mpr ih
    cases hthen : fields.lookup "then" with
    | none => exact exists_ofJson_of_readFrom ⟨_, .groupBy hlead hitems hread hthen⟩
    | some v =>
      obtain ⟨child, hchild⟩ := ihthen v hthen
      exact exists_ofJson_of_readFrom ⟨_, .groupByThen hlead hitems hread hthen hchild⟩

theorem exists_ofJson_iff {v : Json} : (∃ e, ofJson v = .ok e) ↔ v.IsExpr := by
  constructor
  · intro h
    obtain ⟨e, he⟩ := h
    exact isExpr_of_ofJson he
  · exact exists_ofJson_of_isExpr

end Expr

section Options

variable {v : Json} {fields : Fields}

theorem exists_list_iff {ε α : Type} {list : Json → Except ε (List α)} {read : Json → Except ε α}
    {P : Json → Prop}
    (hlist : ∀ {v as}, list v = .ok as ↔ ∃ items, v = .array items ∧ items.mapM read = .ok as)
    (hread : ∀ {v}, (∃ a, read v = .ok a) ↔ P v) : (∃ as, list v = .ok as) ↔ v.IsArrayOf P := by
  simp only [hlist, Json.IsArrayOf, ← hread, ← exists_mapM_ok_iff]
  constructor
  · intro h
    obtain ⟨as, items, rfl, has⟩ := h
    exact ⟨items, rfl, as, has⟩
  · intro h
    obtain ⟨items, rfl, as, has⟩ := h
    exact ⟨as, items, rfl, has⟩

theorem listOfJson_eq_ok_iff {α : Type} {key : String} {read : Json → Reads α} {as : List α} :
    listOfJson key read v = .ok as ↔ ∃ items, v = .array items ∧ items.mapM read = .ok as := by
  cases v <;> simp [listOfJson, itemsOf, bind, Except.bind]

theorem Number.int64?_eq_some_iff {m : Number} {n : Int64} :
    m.int64? = some n ↔ m = .integer n.toInt := by
  constructor
  · intro h
    cases m with
    | integer i =>
      by_cases hbounds : Int64.minValue.toInt ≤ i ∧ i ≤ Int64.maxValue.toInt
      · rw [int64?, if_pos hbounds] at h
        cases h
        have hmax : i < 2 ^ 63 := Int.lt_add_one_of_le hbounds.2
        rw [Int64.toInt_ofInt_of_le hbounds.1 hmax]
      · rw [int64?, if_neg hbounds] at h
        cases h
    | double d => cases h
  · intro h
    rw [h, int64?_toInt]

theorem int64OfJson_eq_ok_iff {key : String} {n : Int64} :
    int64OfJson key v = .ok n ↔ v = Json.integer n := by
  cases v with
  | number m =>
    rw [Json.integer, Json.number.injEq, ← Number.int64?_eq_some_iff]
    cases hint : m.int64? <;> simp [int64OfJson, hint]
  | null | boolean | string | array | object => simp [int64OfJson, Json.integer]

theorem exists_int64_iff {key : String} : (∃ n, int64OfJson key v = .ok n) ↔ v.IsInt64 :=
  exists_congr fun _ => int64OfJson_eq_ok_iff

theorem Levels.exists_ofJson_iff :
    (∃ levels, ofJson v = .ok levels) ↔ v.IsInt64 ∨ v = .string "max" := by
  cases v with
  | number m =>
    simp only [Json.IsInt64, Json.integer, Json.number.injEq, ← Number.int64?_eq_some_iff]
    cases hint : m.int64? <;> simp [ofJson, hint]
  | string s => by_cases hs : s = "max" <;> simp [ofJson, hs, Json.IsInt64, Json.integer]
  | null | boolean | array | object => simp [ofJson, Json.IsInt64, Json.integer]

theorem exists_boolean_iff {key : String} :
    (∃ b, booleanOfJson key v = .ok b) ↔ ∃ b, v = .boolean b := by
  cases v <;> simp [booleanOfJson]

theorem OrderItem.exists_directionOf_iff {direction : Option Json} :
    (∃ d, directionOf direction = .ok d) ↔
      ∀ s, direction = some (.string s) → s = "asc" ∨ s = "desc" := by
  cases direction with
  | none => simp [directionOf]
  | some v =>
    cases v with
    | string s =>
      have hread : (∃ d, directionOf (some (.string s)) = .ok d) ↔
          ∃ d, Direction.ofKeyword? s = some d := by
        simp only [directionOf]
        cases Direction.ofKeyword? s <;> simp
      rw [hread]
      constructor
      · intro h t hstring
        cases hstring
        obtain ⟨d, hd⟩ := h
        rw [← Direction.keyword_of_ofKeyword? hd]
        cases d <;> simp [Direction.keyword]
      · intro h
        rcases h s rfl with rfl | rfl
        · exact ⟨.ascending, rfl⟩
        · exact ⟨.descending, rfl⟩
    | null | boolean | number | array | object => simp [directionOf]

theorem OrderItem.exists_ofJson_iff : (∃ item, ofJson v = .ok item) ↔ v.IsOrderItem := by
  cases v with
  | object fields =>
    simp only [ofJson, Json.IsOrderItem, bind_eq_ok_iff, requiredField_eq_ok_iff,
      ← exists_directionOf_iff, ← Expr.exists_ofJson_iff]
    constructor
    · intro h
      obtain ⟨_, v, hv, e, he, d, hd, -⟩ := h
      exact ⟨⟨v, hv, e, he⟩, d, hd⟩
    · intro h
      obtain ⟨⟨v, hv, e, he⟩, d, hd⟩ := h
      exact ⟨_, v, hv, e, he, d, hd, rfl⟩
  | null | boolean | number | string | array => simp [ofJson, Json.IsOrderItem]

theorem Computed.exists_ofJson_iff : (∃ c, ofJson v = .ok c) ↔ v.IsComputed := by
  cases v with
  | object fields =>
    simp only [ofJson, Json.IsComputed, bind_eq_ok_iff, requiredField_eq_ok_iff,
      stringField_eq_ok_iff, ← Expr.exists_ofJson_iff]
    constructor
    · intro h
      obtain ⟨_, v, hv, e, he, name, hname, -⟩ := h
      exact ⟨⟨v, hv, e, he⟩, name, hname⟩
    · intro h
      obtain ⟨⟨v, hv, e, he⟩, name, hname⟩ := h
      exact ⟨_, v, hv, e, he, name, hname, rfl⟩
  | null | boolean | number | string | array => simp [ofJson, Json.IsComputed]

end Options

namespace SelectItem

variable {v : Json}

theorem isSelectItem_of_ofJson {item : SelectItem} (h : ofJson v = .ok item) : v.IsSelectItem := by
  induction item using SelectItem.induction generalizing v with
  | item path select ih =>
    cases v with
    | string s =>
      obtain ⟨hpath, -⟩ := ofJson_string_eq_ok_iff.mp h
      exact .path (Path.exists_ofJson_iff.mp ⟨path, hpath⟩)
    | object fields =>
      obtain ⟨⟨w, hw, hpath⟩, hselect⟩ := ofJson_object_eq_ok_iff.mp h
      obtain ⟨items, hitems, hread⟩ :=
        (exists_optionList_iff selectOfJson_eq_ok_iff).mp ⟨select, hselect, rfl⟩
      refine .item hw (Path.exists_ofJson_iff.mp ⟨path, hpath⟩) hitems fun v hv => ?_
      obtain ⟨i, hi, hv⟩ := exists_mem_of_mapM hread hv
      exact forall_mem_getD_iff.mpr (fun items hitems i hi => @ih items hitems i hi) i hi hv
    | null | boolean | number | array => cases h

theorem exists_ofJson_of_isSelectItem (h : v.IsSelectItem) : ∃ item, ofJson v = .ok item := by
  induction h with
  | path hpath =>
    obtain ⟨path, hread⟩ := Path.exists_ofJson_iff.mpr hpath
    exact ⟨⟨path, none⟩, ofJson_string_eq_ok_iff.mpr ⟨hread, rfl⟩⟩
  | item hw hpath hitems _ ih =>
    obtain ⟨path, hpath⟩ := Path.exists_ofJson_iff.mpr hpath
    obtain ⟨items, hread⟩ := exists_mapM_ok_iff.mpr ih
    obtain ⟨select, hselect, -⟩ :=
      (exists_optionList_iff selectOfJson_eq_ok_iff).mpr ⟨_, hitems, hread⟩
    exact ⟨⟨path, select⟩, ofJson_object_eq_ok_iff.mpr ⟨⟨_, hw, hpath⟩, hselect⟩⟩

theorem exists_ofJson_iff : (∃ item, ofJson v = .ok item) ↔ v.IsSelectItem := by
  constructor
  · intro h
    obtain ⟨item, hitem⟩ := h
    exact isSelectItem_of_ofJson hitem
  · exact exists_ofJson_of_isSelectItem

end SelectItem

section Terms

variable {fields : Fields}

theorem exists_part_iff {α : Type} {part : TermPart} {read : String → Json → Reads α}
    {P : Json → Prop} (h : ∀ {v}, (∃ a, read part.word v = .ok a) ↔ P v) :
    (∃ o, partField part fields read = .ok o) ↔ ∀ v ∈ fields.lookup part.word, P v := by
  simp only [partField_eq, exists_optionMapM_ok_iff, h]

theorem exists_listPart_iff {α : Type} {part : TermPart} {read : Json → Reads α} {P : Json → Prop}
    (h : ∀ {v}, (∃ a, read v = .ok a) ↔ P v) :
    (∃ o, partField part fields (fun word => listOfJson word read) = .ok o) ↔
      ∀ v ∈ fields.lookup part.word, v.IsArrayOf P := by
  apply exists_part_iff
  exact exists_list_iff listOfJson_eq_ok_iff h

/-- The options are read when each of them has its form. -/
theorem TermOptions.exists_readFrom_iff : (∃ o, ReadFrom fields o) ↔ Json.HasOptions fields := by
  constructor
  · intro h
    obtain ⟨o, h⟩ := h
    exact {
      filter := (exists_part_iff Expr.exists_ofJson_iff).mp ⟨_, h.filter⟩
      orderBy := (exists_listPart_iff OrderItem.exists_ofJson_iff).mp ⟨_, h.orderBy⟩
      top := (exists_part_iff exists_int64_iff).mp ⟨_, h.top⟩
      skip := (exists_part_iff exists_int64_iff).mp ⟨_, h.skip⟩
      count := (exists_part_iff exists_boolean_iff).mp ⟨_, h.count⟩
      levels := (exists_part_iff Levels.exists_ofJson_iff).mp ⟨_, h.levels⟩
      search := (exists_part_iff Expr.exists_ofJson_iff).mp ⟨_, h.search⟩
      select := (exists_part_iff (exists_list_iff SelectItem.selectOfJson_eq_ok_iff
        SelectItem.exists_ofJson_iff)).mp ⟨_, h.select⟩
      compute := (exists_listPart_iff Computed.exists_ofJson_iff).mp ⟨_, h.compute⟩
      apply := (exists_part_iff (exists_list_iff Expr.listOfJson_eq_ok_iff
        Expr.exists_ofJson_iff)).mp ⟨_, h.apply⟩ }
  · intro h
    obtain ⟨_, hfilter⟩ : ∃ o, partField .filter fields (fun _ => Expr.ofJson) = .ok o :=
      (exists_part_iff Expr.exists_ofJson_iff).mpr h.filter
    obtain ⟨_, horderBy⟩ : ∃ o, partField .orderBy fields
        (fun word => listOfJson word OrderItem.ofJson) = .ok o :=
      (exists_listPart_iff OrderItem.exists_ofJson_iff).mpr h.orderBy
    obtain ⟨_, htop⟩ : ∃ o, partField .top fields int64OfJson = .ok o :=
      (exists_part_iff exists_int64_iff).mpr h.top
    obtain ⟨_, hskip⟩ : ∃ o, partField .skip fields int64OfJson = .ok o :=
      (exists_part_iff exists_int64_iff).mpr h.skip
    obtain ⟨_, hcount⟩ : ∃ o, partField .count fields booleanOfJson = .ok o :=
      (exists_part_iff exists_boolean_iff).mpr h.count
    obtain ⟨_, hlevels⟩ : ∃ o, partField .levels fields (fun _ => Levels.ofJson) = .ok o :=
      (exists_part_iff Levels.exists_ofJson_iff).mpr h.levels
    obtain ⟨_, hsearch⟩ : ∃ o, partField .search fields (fun _ => Expr.ofJson) = .ok o :=
      (exists_part_iff Expr.exists_ofJson_iff).mpr h.search
    obtain ⟨_, hselect⟩ : ∃ o, partField .select fields (fun _ => SelectItem.selectOfJson) = .ok o :=
      (exists_part_iff (exists_list_iff SelectItem.selectOfJson_eq_ok_iff
        SelectItem.exists_ofJson_iff)).mpr h.select
    obtain ⟨_, hcompute⟩ : ∃ o, partField .compute fields
        (fun word => listOfJson word Computed.ofJson) = .ok o :=
      (exists_listPart_iff Computed.exists_ofJson_iff).mpr h.compute
    obtain ⟨_, happly⟩ : ∃ o, partField .apply fields (fun _ => Expr.listOfJson) = .ok o :=
      (exists_part_iff (exists_list_iff Expr.listOfJson_eq_ok_iff
        Expr.exists_ofJson_iff)).mpr h.apply
    exact ⟨⟨⟨_, _, _, _, _, _, _, _, _⟩, _, none⟩, hfilter, horderBy, htop, hskip, hcount, hlevels,
      hsearch, hselect, hcompute, happly, rfl⟩

theorem unknownPart?_eq_none_iff :
    unknownPart? fields = none ↔ ∀ key ∈ fields.map Prod.fst, key ∈ TermPart.words := by
  simp [unknownPart?, List.find?_eq_none]

theorem unknownPart?_insertField {part : TermPart} {v : Json} :
    unknownPart? (Json.insertField part.word v fields) = none ↔ unknownPart? fields = none := by
  simp only [unknownPart?_eq_none_iff, mem_keys_insertField, forall_eq_or_imp,
    TermPart.word_mem_words, true_and]

namespace Term

theorem isTerm_of_ofJson {v : Json} {t : Term} (h : ofJson v = .ok t) : v.IsTerm := by
  induction t using Term.induction generalizing v with
  | term path m select expand ih =>
    cases v with
    | object fields =>
      obtain ⟨hpath, hoptions, hexpand⟩ := ofJson_object_eq_ok_iff.mp h
      obtain ⟨hknown, w, hw, hpath⟩ := termPath_eq_ok_iff.mp hpath
      obtain ⟨terms, hterms, hread⟩ :=
        (exists_optionList_iff expandOfJson_eq_ok_iff).mp ⟨expand, hexpand, rfl⟩
      refine .term (unknownPart?_eq_none_iff.mp hknown) hw (Path.exists_ofJson_iff.mp ⟨path, hpath⟩)
        (TermOptions.exists_readFrom_iff.mp ⟨_, hoptions⟩) hterms fun v hv => ?_
      obtain ⟨t, ht, hv⟩ := exists_mem_of_mapM hread hv
      exact forall_mem_getD_iff.mpr (fun terms hterms t ht => @ih terms hterms t ht) t ht hv
    | null | boolean | number | string | array => cases h

theorem exists_ofJson_of_isTerm {v : Json} (h : v.IsTerm) : ∃ t, ofJson v = .ok t := by
  induction h with
  | term hknown hw hpath hoptions hterms _ ih =>
    obtain ⟨path, hpath⟩ := Path.exists_ofJson_iff.mpr hpath
    obtain ⟨options, hread⟩ := TermOptions.exists_readFrom_iff.mpr hoptions
    obtain ⟨terms, hmembers⟩ := exists_mapM_ok_iff.mpr ih
    obtain ⟨expand, hexpand, -⟩ :=
      (exists_optionList_iff expandOfJson_eq_ok_iff).mpr ⟨_, hterms, hmembers⟩
    obtain ⟨m, select, nested⟩ := options
    cases hread.expand
    refine ⟨⟨path, m, select, expand⟩, ofJson_object_eq_ok_iff.mpr ⟨?_, hread, hexpand⟩⟩
    exact termPath_eq_ok_iff.mpr ⟨unknownPart?_eq_none_iff.mpr hknown, _, hw, hpath⟩

theorem exists_ofJson_iff {v : Json} : (∃ t, ofJson v = .ok t) ↔ v.IsTerm := by
  constructor
  · intro h
    obtain ⟨t, ht⟩ := h
    exact isTerm_of_ofJson ht
  · exact exists_ofJson_of_isTerm

end Term

end Terms

/-- A document describes a tree exactly when it is a term or an array of terms. -/
theorem exists_clauseOfJson_iff_isClause (v : Json) :
    (∃ clause, clauseOfJson v = .ok clause) ↔ v.IsClause := by
  have harray : ∀ items, ¬(Json.array items).IsTerm := by
    intro items h
    cases h
  cases v with
  | array items =>
    simp only [clauseOfJson, Term.ofItems_eq_mapM, exists_mapM_ok_iff, Term.exists_ofJson_iff]
    simp [Json.IsClause, Json.IsArrayOf, harray]
  | object fields =>
    simp only [clauseOfJson, bind_eq_ok_iff, pure_eq_ok, Except.ok.injEq]
    simp [Json.IsClause, Json.IsArrayOf, ← Term.exists_ofJson_iff]
  | null | boolean | number | string =>
    simp [clauseOfJson, Json.IsClause, Json.IsArrayOf, ← Term.exists_ofJson_iff, Term.ofJson]

end ExpandTree
