import ExpandTree.Proofs.Acceptance

/-!
Values that read alike. Each place of a document is read in its own way, and a value there may be
exchanged for another that this reading makes the same of: the reading of the array or the object
around it makes the same of both, so that what is alike at some depth is alike at the top.
-/
namespace ExpandTree

open Json (Fields Leads)

/-- Two values of which a reading makes the same, if it makes anything of one of them. -/
def ReadsAlike {ε α : Type} (read : Json → Except ε α) (v w : Json) : Prop :=
  ∀ a, read v = .ok a ↔ read w = .ok a

section Parts

variable {ε α : Type} {read : Json → Except ε α}

theorem ReadsAlike.of_eq {v w : Json} (h : read v = read w) : ReadsAlike read v w :=
  fun a => by rw [h]

/-- An array is read alike when a member of it is. -/
theorem ReadsAlike.mapM {v w : Json} (h : ReadsAlike read v w) {before after : List Json}
    {as : List α} :
    (before ++ v :: after).mapM read = .ok as ↔ (before ++ w :: after).mapM read = .ok as := by
  simp only [List.mapM_append, List.mapM_cons, bind_eq_ok_iff, h _]

theorem ReadsAlike.list {list : Json → Except ε (List α)}
    (hlist : ∀ {v as}, list v = .ok as ↔ ∃ items, v = .array items ∧ items.mapM read = .ok as)
    {v w : Json} (h : ReadsAlike read v w) {before after : List Json} :
    ReadsAlike list (.array (before ++ v :: after)) (.array (before ++ w :: after)) := by
  intro as
  simp only [hlist, Json.array.injEq, exists_eq_left', h.mapM]

variable {v w : Option Json}

theorem optionMapM_alike (h : Option.Rel (ReadsAlike read) v w) {o : Option α} :
    v.mapM read = .ok o ↔ w.mapM read = .ok o := by
  cases h with
  | some h => simp only [optionMapM_some, map_eq_ok_iff, h _]
  | none => rfl

theorem exists_read_alike (h : Option.Rel (ReadsAlike read) v w) {a : α} :
    (∃ u, v = some u ∧ read u = .ok a) ↔ ∃ u, w = some u ∧ read u = .ok a := by
  cases h with
  | some h => simp only [Option.some.injEq, exists_eq_left', h _]
  | none => rfl

end Parts

/-- The places of a document, each with a reading of its own. -/
inductive Place where
  | document
  | terms
  | term
  | path
  | segment
  | keys
  | key
  | expr
  | exprs
  | aggregations
  | aggregation
  | orderItems
  | orderItem
  | computeds
  | computed
  | select
  | selectItem

namespace Place

/-- What an object of a place holds, by the fields that hold it. -/
def fields : Place → List (String × Place)
  | .term =>
      [("path", .path), ("filter", .expr), ("orderby", .orderItems), ("search", .expr),
        ("select", .select), ("compute", .computeds), ("apply", .exprs), ("expand", .terms)]
  | .segment => [("keys", .keys)]
  | .expr =>
      [("parent", .expr), ("left", .expr), ("right", .expr), ("operand", .expr), ("args", .exprs),
        ("aggregate", .aggregations), ("groupby", .exprs), ("then", .expr)]
  | .aggregation | .orderItem | .computed => [("expr", .expr)]
  | .selectItem => [("path", .path), ("select", .select)]
  | _ => []

/-- What an array of a place holds. -/
def item : Place → Option Place
  | .document | .terms => some .term
  | .path => some .segment
  | .keys => some .key
  | .exprs => some .expr
  | .aggregations => some .aggregation
  | .orderItems => some .orderItem
  | .computeds => some .computed
  | .select => some .selectItem
  | _ => none

def ReadsAlike : Place → Json → Json → Prop
  | .document => ExpandTree.ReadsAlike clauseOfJson
  | .terms => ExpandTree.ReadsAlike Term.expandOfJson
  | .term => ExpandTree.ReadsAlike Term.ofJson
  | .path => ExpandTree.ReadsAlike Path.ofJson
  | .segment => ExpandTree.ReadsAlike Segment.ofJson
  | .keys => ExpandTree.ReadsAlike (Segment.keysOf ∘ some)
  | .key => ExpandTree.ReadsAlike KeyValue.ofJson
  | .expr => ExpandTree.ReadsAlike Expr.ofJson
  | .exprs => ExpandTree.ReadsAlike Expr.listOfJson
  | .aggregations => ExpandTree.ReadsAlike Expr.aggregateOfJson
  | .aggregation => ExpandTree.ReadsAlike Expr.aggregationOfJson
  | .orderItems => ExpandTree.ReadsAlike (listOfJson TermPart.orderBy.word OrderItem.ofJson)
  | .orderItem => ExpandTree.ReadsAlike OrderItem.ofJson
  | .computeds => ExpandTree.ReadsAlike (listOfJson TermPart.compute.word Computed.ofJson)
  | .computed => ExpandTree.ReadsAlike Computed.ofJson
  | .select => ExpandTree.ReadsAlike SelectItem.selectOfJson
  | .selectItem => ExpandTree.ReadsAlike SelectItem.ofJson

theorem ReadsAlike.refl (place : Place) (v : Json) : place.ReadsAlike v v := by
  cases place <;> exact fun _ => Iff.rfl

theorem ReadsAlike.symm {place : Place} {v w : Json} (h : place.ReadsAlike v w) :
    place.ReadsAlike w v := by
  cases place <;> exact fun a => (h a).symm

section Optional

variable {place : Place} {v w : Option Json}

theorem ReadsAlike.rel_refl (place : Place) (v : Option Json) :
    Option.Rel place.ReadsAlike v v := by
  cases v with
  | none => exact .none
  | some v => exact .some (refl place v)

theorem ReadsAlike.rel_symm (h : Option.Rel place.ReadsAlike v w) :
    Option.Rel place.ReadsAlike w v := by
  cases h with
  | some h => exact .some h.symm
  | none => exact .none

theorem ReadsAlike.eq_none_iff (h : Option.Rel place.ReadsAlike v w) : v = none ↔ w = none := by
  cases h <;> simp

end Optional

/-- Two objects of a place, alike in the fields that hold places and the same in the others. -/
structure FieldsAlike (place : Place) (a b : Fields) : Prop where
  same : ∀ key, place.fields.lookup key = none → a.lookup key = b.lookup key
  alike : ∀ key inner, place.fields.lookup key = some inner →
    Option.Rel inner.ReadsAlike (a.lookup key) (b.lookup key)

namespace FieldsAlike

variable {place : Place} {a b : Fields}

theorem symm (h : place.FieldsAlike a b) : place.FieldsAlike b a where
  same key hkey := (h.same key hkey).symm
  alike key inner hkey := ReadsAlike.rel_symm (h.alike key inner hkey)

theorem lookup_eq_none_iff (h : place.FieldsAlike a b) (key : String) :
    a.lookup key = none ↔ b.lookup key = none := by
  cases hkey : place.fields.lookup key with
  | none => rw [h.same key hkey]
  | some inner => exact ReadsAlike.eq_none_iff (h.alike key inner hkey)

/-- An object with the value of a field exchanged for one that is read alike. -/
theorem of_insertField {key : String} {inner : Place} (hkey : place.fields.lookup key = some inner)
    {v w : Json} (hv : a.lookup key = some v) (h : inner.ReadsAlike v w) :
    place.FieldsAlike a (Json.insertField key w a) where
  same k hk := by
    have hne : k ≠ key := by
      rintro rfl
      rw [hkey] at hk
      cases hk
    rw [lookup_insertField_of_ne hne]
  alike k other hk := by
    rw [lookup_insertField]
    split
    · rename_i hsame
      subst hsame
      rw [hkey, Option.some.injEq] at hk
      subst hk
      rw [hv]
      exact .some h
    · exact ReadsAlike.rel_refl other _

end FieldsAlike

end Place

section Objects

variable {a b : Fields}

theorem stringField_congr {key : String} (h : a.lookup key = b.lookup key) :
    stringField key a = stringField key b := by
  unfold stringField requiredField
  rw [h]

namespace Segment

theorem keysOf_alike {v w : Option Json} (h : Option.Rel Place.keys.ReadsAlike v w)
    {keys : Option (List KeyValue)} : keysOf v = .ok keys ↔ keysOf w = .ok keys := by
  cases h with
  | some h => exact h keys
  | none => rfl

theorem ofJson_alike (h : Place.segment.FieldsAlike a b) :
    ReadsAlike ofJson (.object a) (.object b) := by
  have hidentifier := stringField_congr (h.same "segment" rfl)
  intro s
  simp only [ofJson, bind_eq_ok_iff, hidentifier, keysOf_alike (h.alike "keys" .keys rfl)]

end Segment

namespace OrderItem

theorem ofJson_object_eq_ok_iff {fields : Fields} {item : OrderItem} :
    ofJson (.object fields) = .ok item ↔
      (∃ v, fields.lookup "expr" = some v ∧ Expr.ofJson v = .ok item.expression) ∧
        directionOf (fields.lookup "direction") = .ok item.direction := by
  obtain ⟨e, d⟩ := item
  simp only [ofJson, bind_eq_ok_iff, requiredField_eq_ok_iff, pure_eq_ok, Except.ok.injEq,
    OrderItem.mk.injEq]
  constructor
  · intro h
    obtain ⟨v, hv, _, he, _, hd, rfl, rfl⟩ := h
    exact ⟨⟨v, hv, he⟩, hd⟩
  · intro h
    obtain ⟨⟨v, hv, he⟩, hd⟩ := h
    exact ⟨v, hv, e, he, d, hd, rfl, rfl⟩

theorem ofJson_alike (h : Place.orderItem.FieldsAlike a b) :
    ReadsAlike ofJson (.object a) (.object b) := by
  intro item
  rw [ofJson_object_eq_ok_iff, ofJson_object_eq_ok_iff, h.same "direction" rfl,
    exists_read_alike (h.alike "expr" .expr rfl)]

end OrderItem

namespace Computed

theorem ofJson_object_eq_ok_iff {fields : Fields} {c : Computed} :
    ofJson (.object fields) = .ok c ↔
      (∃ v, fields.lookup "expr" = some v ∧ Expr.ofJson v = .ok c.expression) ∧
        fields.lookup "as" = some (.string c.name) := by
  obtain ⟨e, name⟩ := c
  simp only [ofJson, bind_eq_ok_iff, requiredField_eq_ok_iff, stringField_eq_ok_iff, pure_eq_ok,
    Except.ok.injEq, Computed.mk.injEq]
  constructor
  · intro h
    obtain ⟨v, hv, _, he, _, hname, rfl, rfl⟩ := h
    exact ⟨⟨v, hv, he⟩, hname⟩
  · intro h
    obtain ⟨⟨v, hv, he⟩, hname⟩ := h
    exact ⟨v, hv, e, he, name, hname, rfl, rfl⟩

theorem ofJson_alike (h : Place.computed.FieldsAlike a b) :
    ReadsAlike ofJson (.object a) (.object b) := by
  intro c
  rw [ofJson_object_eq_ok_iff, ofJson_object_eq_ok_iff, h.same "as" rfl,
    exists_read_alike (h.alike "expr" .expr rfl)]

end Computed

theorem SelectItem.ofJson_alike (h : Place.selectItem.FieldsAlike a b) :
    ReadsAlike ofJson (.object a) (.object b) := by
  intro item
  rw [ofJson_object_eq_ok_iff, ofJson_object_eq_ok_iff,
    exists_read_alike (h.alike "path" .path rfl), optionMapM_alike (h.alike "select" .select rfl)]

theorem Aggregation.readFrom_of_alike (h : Place.aggregation.FieldsAlike a b) {value : Aggregation}
    (ha : ReadFrom a value) : ReadFrom b value := by
  have hwith := h.same "with" rfl
  have has := h.same "as" rfl
  cases ha with
  | expression hmethod hexpr hread hname =>
    obtain ⟨w, hw, hread⟩ :=
      (exists_read_alike (h.alike "expr" .expr rfl)).mp ⟨_, hexpr, hread⟩
    exact .expression (hwith.symm.trans hmethod) hw hread (has.symm.trans hname)
  | members hmethod hexpr hname =>
    exact .members (hwith.symm.trans hmethod) ((h.lookup_eq_none_iff "expr").mp hexpr)
      (has.symm.trans hname)

theorem Aggregation.ofJson_alike (h : Place.aggregation.FieldsAlike a b) :
    ReadsAlike Expr.aggregationOfJson (.object a) (.object b) := by
  intro value
  simp only [Expr.aggregationOfJson_eq_ok_iff, Json.object.injEq, exists_eq_left']
  exact ⟨readFrom_of_alike h, readFrom_of_alike h.symm⟩

namespace Expr

theorem readFrom_of_alike (h : Place.expr.FieldsAlike a b) {e : Expr} (ha : ReadFrom a e) :
    ReadFrom b e := by
  have hsame : ∀ {key v}, a.lookup key = some v → Place.expr.fields.lookup key = none →
      b.lookup key = some v := fun hv hkey => (h.same _ hkey).symm.trans hv
  have hnone : ∀ {key}, a.lookup key = none → b.lookup key = none :=
    (h.lookup_eq_none_iff _).mp
  have hlead : ∀ {key}, Leads key a → Leads key b :=
    fun hlead earlier hearlier => hnone (hlead earlier hearlier)
  have hread : ∀ {key v e}, a.lookup key = some v → ofJson v = .ok e →
      Place.expr.fields.lookup key = some .expr → ∃ w, b.lookup key = some w ∧ ofJson w = .ok e :=
    fun hv he hkey => (exists_read_alike (h.alike _ _ hkey)).mp ⟨_, hv, he⟩
  have hlist : ∀ {key items es}, a.lookup key = some (.array items) → items.mapM ofJson = .ok es →
      Place.expr.fields.lookup key = some .exprs →
        ∃ items, b.lookup key = some (.array items) ∧ items.mapM ofJson = .ok es := by
    intro key items es hitems hes hkey
    obtain ⟨w, hw, hread⟩ := (exists_read_alike (h.alike _ _ hkey)).mp
      ⟨_, hitems, listOfJson_eq_ok_iff.mpr ⟨items, rfl, hes⟩⟩
    obtain ⟨items', rfl, hes⟩ := listOfJson_eq_ok_iff.mp hread
    exact ⟨items', hw, hes⟩
  cases ha with
  | literal hfield hl => exact .literal (hsame hfield rfl) hl
  | property hleads hname hparent =>
    exact .property (hlead hleads) (hsame hname rfl) (hnone hparent)
  | member hleads hname hparent hv =>
    obtain ⟨w, hw, hread⟩ := hread hparent hv rfl
    exact .member (hlead hleads) (hsame hname rfl) hw hread
  | binary hleads hop hleft hv hright hw =>
    obtain ⟨v', hv', hleft⟩ := hread hleft hv rfl
    obtain ⟨w', hw', hright⟩ := hread hright hw rfl
    exact .binary (hlead hleads) (hsame hop rfl) hv' hleft hw' hright
  | unary hleads hop hoperand hv =>
    obtain ⟨w, hw, hread⟩ := hread hoperand hv rfl
    exact .unary (hlead hleads) (hsame hop rfl) hw hread
  | call hleads hfunction hitems harguments =>
    obtain ⟨o, ho, rfl⟩ :=
      (exists_optionList_iff listOfJson_eq_ok_iff).mpr ⟨_, hitems, harguments⟩
    rw [optionMapM_alike (h.alike "args" .exprs rfl)] at ho
    obtain ⟨items, hitems, harguments⟩ :=
      (exists_optionList_iff listOfJson_eq_ok_iff).mp ⟨o, ho, rfl⟩
    exact .call (hlead hleads) (hsame hfunction rfl) hitems harguments
  | search hleads hterm => exact .search (hlead hleads) (hsame hterm rfl)
  | aggregate hleads hitems hvalues =>
    obtain ⟨w, hw, hread⟩ := (exists_read_alike (h.alike "aggregate" .aggregations rfl)).mp
      ⟨_, hitems, aggregateOfJson_eq_ok_iff.mpr ⟨_, rfl, hvalues⟩⟩
    obtain ⟨items, rfl, hvalues⟩ := aggregateOfJson_eq_ok_iff.mp hread
    exact .aggregate (hlead hleads) hw hvalues
  | groupBy hleads hitems hproperties hthen =>
    obtain ⟨items, hitems, hproperties⟩ := hlist hitems hproperties rfl
    exact .groupBy (hlead hleads) hitems hproperties (hnone hthen)
  | groupByThen hleads hitems hproperties hthen hchild =>
    obtain ⟨items, hitems, hproperties⟩ := hlist hitems hproperties rfl
    obtain ⟨w, hw, hchild⟩ := hread hthen hchild rfl
    exact .groupByThen (hlead hleads) hitems hproperties hw hchild

theorem ofJson_alike (h : Place.expr.FieldsAlike a b) :
    ReadsAlike ofJson (.object a) (.object b) := by
  intro e
  rw [ofJson_object_eq_ok_iff, ofJson_object_eq_ok_iff]
  exact ⟨readFrom_of_alike h, readFrom_of_alike h.symm⟩

end Expr

section Terms

theorem partField_of_alike {α : Type} {part : TermPart} {read : String → Json → Reads α}
    {o : Option α} (ha : partField part a read = .ok o)
    (h : Option.Rel (ReadsAlike (read part.word)) (a.lookup part.word) (b.lookup part.word)) :
    partField part b read = .ok o := by
  rw [partField_eq] at ha ⊢
  exact (optionMapM_alike h).mp ha

theorem TermOptions.readFrom_of_alike (h : Place.term.FieldsAlike a b) {o : TermOptions}
    (ha : ReadFrom a o) : ReadFrom b o := by
  have hsame : ∀ {part : TermPart} {α : Type} {read : String → Json → Reads α} {o : Option α},
      partField part a read = .ok o → Place.term.fields.lookup part.word = none →
      partField part b read = .ok o := by
    intro part α read o ha hkey
    rwa [partField_eq, ← h.same _ hkey, ← partField_eq]
  exact {
    filter := partField_of_alike ha.filter (h.alike "filter" .expr rfl)
    orderBy := partField_of_alike ha.orderBy (h.alike "orderby" .orderItems rfl)
    top := hsame ha.top rfl
    skip := hsame ha.skip rfl
    count := hsame ha.count rfl
    levels := hsame ha.levels rfl
    search := partField_of_alike ha.search (h.alike "search" .expr rfl)
    select := partField_of_alike ha.select (h.alike "select" .select rfl)
    compute := partField_of_alike ha.compute (h.alike "compute" .computeds rfl)
    apply := partField_of_alike ha.apply (h.alike "apply" .exprs rfl)
    expand := ha.expand }

theorem unknownPart?_alike (h : Place.term.FieldsAlike a b) :
    unknownPart? a = none ↔ unknownPart? b = none := by
  simp only [unknownPart?_eq_none_iff, mem_keys_iff, ne_eq, h.lookup_eq_none_iff]

theorem termPath_alike (h : Place.term.FieldsAlike a b) {p : Path} :
    termPath a = .ok (some p) ↔ termPath b = .ok (some p) := by
  rw [termPath_eq_ok_iff, termPath_eq_ok_iff, unknownPart?_alike h]
  exact and_congr_right' (exists_read_alike (h.alike "path" .path rfl))

theorem Term.ofJson_alike (h : Place.term.FieldsAlike a b) :
    ReadsAlike ofJson (.object a) (.object b) := by
  intro t
  have hoptions : TermOptions.ReadFrom a { t.modifiers with select := t.select } ↔
      TermOptions.ReadFrom b { t.modifiers with select := t.select } :=
    ⟨TermOptions.readFrom_of_alike h, TermOptions.readFrom_of_alike h.symm⟩
  rw [ofJson_object_eq_ok_iff, ofJson_object_eq_ok_iff, termPath_alike h, hoptions]
  exact and_congr_right' (and_congr_right' (optionMapM_alike (h.alike "expand" .terms rfl)))

end Terms

end Objects

namespace Place

variable {place : Place}

/-- An object is read alike when its fields are. -/
theorem readsAlike_object (hfields : place.fields ≠ []) {a b : Fields}
    (h : place.FieldsAlike a b) : place.ReadsAlike (.object a) (.object b) := by
  cases place with
  | term => exact Term.ofJson_alike h
  | segment => exact Segment.ofJson_alike h
  | expr => exact Expr.ofJson_alike h
  | aggregation => exact Aggregation.ofJson_alike h
  | orderItem => exact OrderItem.ofJson_alike h
  | computed => exact Computed.ofJson_alike h
  | selectItem => exact SelectItem.ofJson_alike h
  | document | terms | path | keys | key | exprs | aggregations | orderItems | computeds
  | select => exact absurd rfl hfields

/-- An array is read alike when a member of it is. -/
theorem readsAlike_array {inner : Place} (hitem : place.item = some inner) {v w : Json}
    (h : inner.ReadsAlike v w) (before after : List Json) :
    place.ReadsAlike (.array (before ++ v :: after)) (.array (before ++ w :: after)) := by
  cases place with
  | document =>
    cases hitem
    intro clause
    rw [clauseOfJson, clauseOfJson, Term.ofItems_eq_mapM, Term.ofItems_eq_mapM]
    exact ExpandTree.ReadsAlike.mapM h
  | terms =>
    cases hitem
    exact ExpandTree.ReadsAlike.list Term.expandOfJson_eq_ok_iff h
  | path =>
    cases hitem
    intro p
    simp only [Path.ofJson, map_eq_ok_iff, ExpandTree.ReadsAlike.mapM h]
  | keys =>
    cases hitem
    intro keys
    simp only [Function.comp_apply, Segment.keysOf, map_eq_ok_iff, ExpandTree.ReadsAlike.mapM h]
  | exprs =>
    cases hitem
    exact ExpandTree.ReadsAlike.list Expr.listOfJson_eq_ok_iff h
  | aggregations =>
    cases hitem
    exact ExpandTree.ReadsAlike.list Expr.aggregateOfJson_eq_ok_iff h
  | orderItems | computeds =>
    cases hitem
    exact ExpandTree.ReadsAlike.list listOfJson_eq_ok_iff h
  | select =>
    cases hitem
    exact ExpandTree.ReadsAlike.list SelectItem.selectOfJson_eq_ok_iff h
  | term | segment | key | expr | aggregation | orderItem | computed | selectItem => cases hitem

end Place

end ExpandTree
