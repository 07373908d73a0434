import ExpandTree.Document.Reader
import ExpandTree.Proofs.PathRereading

/-!
Expressions and options that read back. What is written for an expression without NaNs is read as
an equal expression, so the options of a term that are made of expressions and numbers read back.
-/
namespace ExpandTree

open Json (Fields)

/-- The object for one value of an aggregate step. -/
def Aggregation.toJson (item : Aggregation) : Json :=
  .object [("as", .string item.name), ("expr", item.expression.toJson),
    ("with", .string item.method.keyword)]

namespace Expr

theorem aggregationsToJson_eq_map (items : List Aggregation) :
    aggregationsToJson items = items.map Aggregation.toJson :=
  eq_map_of_cons rfl (fun ⟨_, _, _⟩ _ => rfl) items

section Objects

variable {v w : Json} {a b : Expr} {es : List Expr} {name : String}

theorem ofJson_member (h : ofJson v = .ok a) :
    ofJson (.object [("parent", v), ("property", .string name)]) = .ok (.member a name) := by
  simp [ofJson, ofField_eq, lookup_cons, absentOr, stringField_of_lookup, h, Except.map]

theorem ofJson_binary {op : BinaryOp} (hv : ofJson v = .ok a) (hw : ofJson w = .ok b) :
    ofJson (.object [("binary", .string op.keyword), ("left", v), ("right", w)]) =
      .ok (.binary op a b) := by
  simp [ofJson, ofField_eq, lookup_cons, stringField_of_lookup, BinaryOp.ofKeyword?_keyword,
    present, hv, hw]

theorem ofJson_unary {op : UnaryOp} (h : ofJson v = .ok a) :
    ofJson (.object [("operand", v), ("unary", .string op.keyword)]) = .ok (.unary op a) := by
  simp [ofJson, ofField_eq, lookup_cons, stringField_of_lookup, UnaryOp.ofKeyword?_keyword,
    present, h]

theorem ofJson_call (h : listOfJson v = .ok es) :
    ofJson (.object [("args", v), ("call", .string name)]) = .ok (.call name es) := by
  simp [ofJson, listOfField_eq, lookup_cons, stringField_of_lookup, absentOr, h, Except.map]

theorem ofJson_search : ofJson (.object [("search", .string name)]) = .ok (.search name) := by
  simp [ofJson, lookup_cons, stringField_of_lookup]

theorem ofJson_aggregate {vs : List Json} {items : List Aggregation}
    (h : vs.mapM aggregationOfJson = .ok items) :
    ofJson (.object [("aggregate", .array vs)]) = .ok (.aggregate items) := by
  simp [ofJson, lookup_cons, aggregateOfField_eq, aggregateOfJson, aggregateOfItems_eq_mapM, h,
    Except.map]

theorem ofJson_groupBy (h : listOfJson v = .ok es) :
    ofJson (.object [("groupby", v)]) = .ok (.groupBy es) := by
  simp [ofJson, lookup_cons, aggregateOfField_eq, listOfField_eq, ofField_eq, absentOr, h]

theorem ofJson_groupByThen (hv : listOfJson v = .ok es) (hw : ofJson w = .ok a) :
    ofJson (.object [("groupby", v), ("then", w)]) = .ok (.groupByThen es a) := by
  simp [ofJson, lookup_cons, aggregateOfField_eq, listOfField_eq, ofField_eq, absentOr, hv, hw,
    Except.map]

end Objects

theorem rereads_list {es : List Expr} (h : ∀ e ∈ es, Rereads ofJson toJson e) :
    Rereads listOfJson (fun es => .array (toJsons es)) es := by
  simp only [Rereads, listOfJson, toJsons_eq_map, ofItems_eq_mapM]
  exact exists_mapM_iff.mpr h

theorem rereads_aggregation {item : Aggregation} (h : Rereads ofJson toJson item.expression) :
    Rereads aggregationOfJson Aggregation.toJson item := by
  obtain ⟨e, method, name⟩ := item
  obtain ⟨e', hread, heq⟩ := h
  refine ⟨⟨e', method, name⟩, ?_, ?_⟩
  · simp [aggregationOfJson, Aggregation.toJson, ofField_eq, lookup_cons, stringField_of_lookup,
      AggregationMethod.ofKeyword?_keyword, hread]
  · show (e' == e && method == method && name == name) = true
    simp [heq]

/-- An expression reads back when none of its literals is a NaN. -/
theorem rereads {e : Expr} (h : ∀ token ∈ e.tokens, token.NaNFree) :
    Rereads ofJson toJson e := by
  induction e using Expr.induction with
  | literal l =>
    have hl := List.forall_mem_singleton.mp h l (List.mem_singleton_self l)
    obtain ⟨l', hread, heq⟩ := Literal.rereads hl
    exact ⟨.literal l', by simp [toJson, ofJson, hread, Except.map], heq⟩
  | property name =>
    refine ⟨.property name, ?_, BEq.rfl (α := String)⟩
    simp [toJson, ofJson, lookup_cons, ofField_eq, absentOr, stringField_of_lookup]
  | member parent name ih =>
    obtain ⟨-, hbelow⟩ := forall_tokens_iff.mp h
    obtain ⟨parent', hread, heq⟩ := ih (hbelow parent List.mem_cons_self)
    refine ⟨.member parent' name, ofJson_member hread, ?_⟩
    show (parent' == parent && name == name) = true
    simp [heq]
  | binary op left right ihl ihr =>
    obtain ⟨-, hbelow⟩ := forall_tokens_iff.mp h
    obtain ⟨left', hl, heql⟩ := ihl (hbelow left List.mem_cons_self)
    obtain ⟨right', hr, heqr⟩ :=
      ihr (hbelow right (List.mem_cons_of_mem left List.mem_cons_self))
    refine ⟨.binary op left' right', ofJson_binary hl hr, ?_⟩
    show (op == op && left' == left && right' == right) = true
    simp [heql, heqr]
  | unary op operand ih =>
    obtain ⟨-, hbelow⟩ := forall_tokens_iff.mp h
    obtain ⟨operand', hread, heq⟩ := ih (hbelow operand List.mem_cons_self)
    refine ⟨.unary op operand', ofJson_unary hread, ?_⟩
    show (op == op && operand' == operand) = true
    simp [heq]
  | call function arguments ih =>
    obtain ⟨-, hbelow⟩ := forall_tokens_iff.mp h
    obtain ⟨arguments', hread, heq⟩ := rereads_list fun e he => ih e he (hbelow e he)
    refine ⟨.call function arguments', ofJson_call hread, ?_⟩
    show (function == function && allEqual arguments' arguments) = true
    simp [allEqual_eq_beq, heq]
  | star => exact ⟨.star, rfl, rfl⟩
  | search term => exact ⟨.search term, ofJson_search, BEq.rfl (α := String)⟩
  | aggregate items ih =>
    obtain ⟨-, hbelow⟩ := forall_tokens_iff.mp h
    have hitems : ∀ item ∈ items, Rereads aggregationOfJson Aggregation.toJson item :=
      fun item hitem =>
        rereads_aggregation (ih item hitem (hbelow _ (List.mem_map_of_mem hitem)))
    obtain ⟨items', hread, heq⟩ := exists_mapM_iff.mpr hitems
    refine ⟨.aggregate items', ?_, ?_⟩
    · rw [toJson, aggregationsToJson_eq_map]
      exact ofJson_aggregate hread
    · show aggregationsEqual items' items = true
      rw [aggregationsEqual_eq_beq, heq]
  | groupBy properties ih =>
    obtain ⟨-, hbelow⟩ := forall_tokens_iff.mp h
    obtain ⟨properties', hread, heq⟩ := rereads_list fun e he => ih e he (hbelow e he)
    refine ⟨.groupBy properties', ofJson_groupBy hread, ?_⟩
    show allEqual properties' properties = true
    rw [allEqual_eq_beq, heq]
  | groupByThen properties child ih ihc =>
    obtain ⟨hbelow, hchild⟩ := List.forall_mem_append.mp (forall_tokens_iff.mp h).2
    obtain ⟨properties', hread, heq⟩ := rereads_list fun e he => ih e he (hbelow e he)
    obtain ⟨child', hc, heqc⟩ := ihc (hchild child List.mem_cons_self)
    refine ⟨.groupByThen properties' child', ofJson_groupByThen hread hc, ?_⟩
    show (allEqual properties' properties && child' == child) = true
    simp [allEqual_eq_beq, heq, heqc]

end Expr

theorem OrderItem.rereads {item : OrderItem} (h : Rereads Expr.ofJson Expr.toJson item.expression) :
    Rereads ofJson toJson item := by
  obtain ⟨e, direction⟩ := item
  obtain ⟨e', hread, heq⟩ := h
  refine ⟨⟨e', direction⟩, ?_, ?_⟩
  · simp [toJson, ofJson, lookup_cons, requiredField, directionOf, Direction.ofKeyword?_keyword,
      hread]
  · show (e' == e && direction == direction) = true
    simp [heq]

theorem Computed.rereads {c : Computed} (h : Rereads Expr.ofJson Expr.toJson c.expression) :
    Rereads ofJson toJson c := by
  obtain ⟨e, name⟩ := c
  obtain ⟨e', hread, heq⟩ := h
  refine ⟨⟨e', name⟩, ?_, ?_⟩
  · simp [toJson, ofJson, lookup_cons, requiredField, stringField_of_lookup, hread]
  · show (e' == e && name == name) = true
    simp [heq]

theorem Levels.rereads (levels : Levels) : Rereads ofJson toJson levels := by
  refine ⟨levels, ?_, BEq.rfl⟩
  cases levels with
  | depth n => rw [toJson, Json.integer, ofJson, Number.int64?_toInt]
  | max => rfl

theorem int64_rereads (key : String) (n : Int64) : Rereads (int64OfJson key) Json.integer n := by
  refine ⟨n, ?_, BEq.rfl⟩
  rw [Json.integer, int64OfJson, Number.int64?_toInt]

theorem boolean_rereads (key : String) (b : Bool) : Rereads (booleanOfJson key) .boolean b :=
  ⟨b, rfl, BEq.rfl⟩

theorem list_rereads {α : Type} [BEq α] {read : Json → Reads α} {write : α → Json} (key : String)
    {as : List α} (h : ∀ a ∈ as, Rereads read write a) :
    Rereads (listOfJson key read) (fun as => .array (as.map write)) as := by
  simp only [Rereads, listOfJson, itemsOf, ok_bind]
  exact exists_mapM_iff.mpr h

end ExpandTree
