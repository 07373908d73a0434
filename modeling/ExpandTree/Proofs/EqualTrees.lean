import ExpandTree.Proofs.Inversion

/-!
Normalization of equal trees. Trees that are equal may be written in different ways, for the two
zeros are one number and so are 1.0 and 1.00. Equal trees name the same paths and hold the same
items, so the same terms are merged and the same items are left out of a union: what normalization
makes of equal trees is equal again. No tree has to equal itself for that.
-/
namespace ExpandTree

section Containers

variable {α β : Type} [BEq α] [BEq β]

theorem cons_beq_cons {a b : α} {as bs : List α} (h : a == b) (hs : as == bs) :
    (a :: as) == (b :: bs) := by
  rw [List.cons_beq_cons, h, hs]
  rfl

theorem listBeq_map_map_of_mem {f : α → β} {as bs : List α}
    (h : ∀ a ∈ as, ∀ b, a == b → f a == f b) (hab : as == bs) : as.map f == bs.map f := by
  rw [listBeq_iff_forall₂] at hab
  induction hab with
  | nil => rfl
  | cons hhead _ ih =>
    obtain ⟨ha, has⟩ := List.forall_mem_cons.mp h
    exact cons_beq_cons (ha _ hhead) (ih has)

theorem eq_none_or_some_of_beq {a b : Option α} (h : a == b) :
    (a = none ∧ b = none) ∨ ∃ x y, a = some x ∧ b = some y ∧ x == y := by
  cases a with
  | none =>
    cases b with
    | none => exact .inl ⟨rfl, rfl⟩
    | some _ => contradiction
  | some x =>
    cases b with
    | none => contradiction
    | some y => exact .inr ⟨x, y, rfl, rfl, h⟩

theorem optionBeq_map_map_of_mem {f : α → β} {a b : Option α}
    (h : ∀ x ∈ a, ∀ y, x == y → f x == f y) (hab : a == b) : a.map f == b.map f := by
  obtain ⟨rfl, rfl⟩ | ⟨x, y, rfl, rfl, hxy⟩ := eq_none_or_some_of_beq hab
  · rfl
  · exact h x rfl y hxy

theorem append_beq_append {as bs cs ds : List α} (hab : as == bs) (hcd : cs == ds) :
    as ++ cs == bs ++ ds := by
  rw [listBeq_iff_forall₂] at *
  exact List.rel_append hab hcd

/-- Equal lists hold equals of the same values. -/
theorem contains_eq_contains [PartialEquivBEq α] {as bs : List α} {a b : α} (h : as == bs)
    (hab : a == b) : as.contains a = bs.contains b := by
  rw [listBeq_iff_forall₂] at h
  induction h with
  | nil => rfl
  | cons hhead _ ih =>
    rw [List.contains_cons, List.contains_cons, ih, BEq.congr_left hab, BEq.congr_right hhead]

end Containers

namespace Path

/-- Equal paths have the same identifiers, whatever keys they hold. -/
theorem identifiers_eq_of_beq {p q : Path} (h : p == q) : p.identifiers = q.identifiers := by
  have hsegment : ∀ s t : Segment, s == t → s.identifier == t.identifier := fun s t hst =>
    ((Bool.and_eq_true _ _).mp ((Bool.and_eq_true _ _).mp hst).1).1
  rw [beq_def] at h
  exact eq_of_beq (listBeq_map_map_of_mem (fun s _ => hsegment s) h)

theorem samePath_eq_samePath {p q p' q' : Path} (hp : p == p') (hq : q == q') :
    p.samePath q = p'.samePath q' := by
  rw [samePath_eq, samePath_eq, identifiers_eq_of_beq hp, identifiers_eq_of_beq hq]

end Path

section Union

/-- Unions of equal selects leave out equal items. -/
theorem unite_beq_unite {first second first' second' : Select} (hfirst : first == first')
    (hsecond : second == second') : unite first second == unite first' second' := by
  rw [listBeq_iff_forall₂] at hsecond
  induction hsecond generalizing first first' with
  | nil => exact hfirst
  | cons hitem _ ih =>
    rw [unite, unite, contains_eq_contains hfirst hitem]
    split
    · exact ih hfirst
    · exact ih (append_beq_append hfirst (cons_beq_cons hitem rfl))

theorem joinOptions_beq_joinOptions {α : Type} [BEq α] {join : α → α → α}
    (h : ∀ {x y x' y'}, x == x' → y == y' → join x y == join x' y') {a b a' b' : Option α}
    (ha : a == a') (hb : b == b') : joinOptions join a b == joinOptions join a' b' := by
  obtain ⟨rfl, rfl⟩ | ⟨x, x', rfl, rfl, hx⟩ := eq_none_or_some_of_beq ha
  · exact hb
  · obtain ⟨rfl, rfl⟩ | ⟨y, y', rfl, rfl, hy⟩ := eq_none_or_some_of_beq hb
    · exact hx
    · exact h hx hy

end Union

namespace Term

theorem beq_iff {t u : Term} :
    t == u ↔ t.path == u.path ∧ t.modifiers == u.modifiers ∧ t.select == u.select ∧
      t.expand == u.expand := by
  obtain ⟨p, m, s, e⟩ := t
  obtain ⟨q, n, r, f⟩ := u
  rw [mk_beq_mk, Bool.and_eq_true, Bool.and_eq_true, Bool.and_eq_true, and_assoc, and_assoc]

/-- Inversion keeps terms apart, down to the last nested clause. -/
theorem inverted_beq_inverted (t u : Term) : (t.inverted == u.inverted) = (t == u) := by
  induction t using Term.induction generalizing u with
  | term p m s e ih =>
    obtain ⟨q, n, r, f⟩ := u
    have hselect : (s.map (List.map SelectItem.inverted) == r.map (List.map SelectItem.inverted)) =
        (s == r) :=
      optionBeq_map_of_mem fun _ _ _ => listBeq_map_of_mem fun i _ => i.inverted_beq_inverted
    have hexpand : (e.map Clause.inverted == f.map Clause.inverted) = (e == f) := by
      refine optionBeq_map_of_mem fun terms hterms others => ?_
      rw [Clause.inverted_eq, Clause.inverted_eq]
      exact listBeq_map_of_mem (ih terms hterms)
    rw [inverted_eq, inverted_eq, mk_beq_mk, mk_beq_mk, Path.reversed_beq_reversed, hselect,
      hexpand]

theorem merge_beq_merge {t u t' u' : Term} (ht : t == t') (hu : u == u') :
    t.merge u == t'.merge u' := by
  obtain ⟨hpath, hmodifiers, hselect, hexpand⟩ := beq_iff.mp ht
  obtain ⟨-, -, hselect', hexpand'⟩ := beq_iff.mp hu
  exact beq_iff.mpr ⟨hpath, hmodifiers,
    joinOptions_beq_joinOptions unite_beq_unite hselect hselect',
    joinOptions_beq_joinOptions append_beq_append hexpand hexpand'⟩

/-- Work on nested clauses keeps terms equal if it keeps their nested clauses equal. -/
theorem mapExpand_beq_mapExpand {f : Clause → Clause} {t u : Term}
    (h : ∀ other, t.nested == other → f t.nested == f other) (htu : t == u) :
    t.mapExpand f == u.mapExpand f := by
  obtain ⟨hpath, hmodifiers, hselect, hexpand⟩ := beq_iff.mp htu
  refine beq_iff.mpr ⟨hpath, hmodifiers, hselect, optionBeq_map_map_of_mem ?_ hexpand⟩
  intro terms hterms
  have hnested : t.nested = terms := by rw [nested, hterms, Option.getD_some]
  rwa [hnested] at h

end Term

namespace Clause

/-- Equal terms are merged into the same places of equal clauses. -/
theorem insert_beq_insert {t u : Term} {clause other : Clause} (htu : t == u)
    (h : clause == other) : insert t clause == insert u other := by
  rw [listBeq_iff_forall₂] at h
  induction h with
  | nil => exact cons_beq_cons htu rfl
  | cons hfirst hrest ih =>
    rw [← listBeq_iff_forall₂] at hrest
    have hpath := Path.samePath_eq_samePath (Term.beq_iff.mp hfirst).1 (Term.beq_iff.mp htu).1
    rw [insert, insert, hpath]
    split
    · exact cons_beq_cons (Term.merge_beq_merge hfirst htu) hrest
    · exact cons_beq_cons hfirst ih

theorem absorb_beq_absorb {terms clause terms' clause' : Clause} (hterms : terms == terms')
    (h : clause == clause') : absorb terms clause == absorb terms' clause' := by
  rw [listBeq_iff_forall₂] at h
  induction h generalizing terms terms' with
  | nil => exact hterms
  | cons ht _ ih => exact ih (insert_beq_insert ht hterms)

theorem merged_beq_merged {clause other : Clause} (h : clause == other) :
    merged clause == merged other := by
  have hnone : ([] : Clause) == [] := rfl
  exact absorb_beq_absorb hnone h

theorem combined_beq_combined {clause other : Clause} (h : clause == other) :
    combined clause == combined other := by
  induction clause using combined_induction generalizing other with
  | merged clause ih =>
    rw [combined_eq, combined_eq]
    refine listBeq_map_map_of_mem ?_ (merged_beq_merged h)
    intro t ht u htu
    exact Term.mapExpand_beq_mapExpand (fun _ => ih t ht) htu

theorem inverted_beq_inverted (clause other : Clause) :
    (clause.inverted == other.inverted) = (clause == other) := by
  rw [inverted_eq, inverted_eq]
  exact listBeq_map_of_mem fun t _ => t.inverted_beq_inverted

/-- Equal trees are combined, inverted and normalized to equal trees. -/
theorem normalized_beq_normalized {clause other : Clause} (h : clause == other) :
    combined clause == combined other ∧ clause.inverted == other.inverted ∧
      normalized clause == normalized other := by
  have hinverted : clause.inverted == other.inverted := by rwa [inverted_beq_inverted]
  exact ⟨combined_beq_combined h, hinverted, combined_beq_combined hinverted⟩

/-- Two terms that are merged, the first with a double in its key, and selects with one item each,
keyed with a decimal. -/
def keyedOrders (key : Double) (first second : Decimal) : Clause :=
  let lines (d : Decimal) : Select := [⟨.last ⟨"Lines", .model, some [⟨none, .decimal d⟩]⟩, none⟩]
  [⟨.last ⟨"Orders", .model, some [⟨none, .double key⟩]⟩, {}, some (lines first), none⟩,
   ⟨.last (.ofIdentifier "Orders"), {}, some (lines second), none⟩]

theorem normalized_beq_normalized_signedZeros :
    let one : Decimal := ⟨false, 10, 1, by decide, by decide⟩
    let hundredths : Decimal := ⟨false, 100, 2, by decide, by decide⟩
    let clause := keyedOrders .zero one hundredths
    let other := keyedOrders Double.zero.neg hundredths one
    clause == other ∧ combined clause == combined other ∧ clause.inverted == other.inverted ∧
      normalized clause == normalized other := by
  have h : keyedOrders .zero ⟨false, 10, 1, by decide, by decide⟩
      ⟨false, 100, 2, by decide, by decide⟩ == keyedOrders Double.zero.neg
      ⟨false, 100, 2, by decide, by decide⟩ ⟨false, 10, 1, by decide, by decide⟩ := by decide
  exact ⟨h, normalized_beq_normalized h⟩

end Clause

end ExpandTree
