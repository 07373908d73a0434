import ExpandTree.Proofs.Combining
import Mathlib.Data.List.Forall2

/-!
Inversion beside combining. Turning two paths around neither joins nor separates them, whether they
are compared by their identifiers or as a whole. So the same terms are merged and the same items
are united before and after an inversion, and the two passes may be made in either order.
-/
namespace ExpandTree

section Reversal

variable {α : Type} [BEq α]

theorem listBeq_iff_forall₂ (as bs : List α) :
    (as == bs) = true ↔ List.Forall₂ (fun a b => (a == b) = true) as bs := by
  induction as generalizing bs with
  | nil => cases bs <;> simp
  | cons a as ih =>
    cases bs with
    | nil => simp
    | cons b bs => simp only [List.cons_beq_cons, Bool.and_eq_true, List.forall₂_cons, ih]

theorem reverse_beq_reverse (as bs : List α) : (as.reverse == bs.reverse) = (as == bs) := by
  rw [Bool.eq_iff_iff, listBeq_iff_forall₂, listBeq_iff_forall₂, List.forall₂_reverse_iff]

/-- A map under which members are equal only if they were before keeps lists apart too. -/
theorem listBeq_map_of_mem {f : α → α} {as bs : List α}
    (h : ∀ a ∈ as, ∀ b, (f a == f b) = (a == b)) : (as.map f == bs.map f) = (as == bs) := by
  induction as generalizing bs with
  | nil => cases bs <;> rfl
  | cons a as ih =>
    cases bs with
    | nil => rfl
    | cons b bs =>
      obtain ⟨ha, has⟩ := List.forall_mem_cons.mp h
      rw [List.map_cons, List.map_cons, List.cons_beq_cons, List.cons_beq_cons, ha, ih has]

theorem optionBeq_map_of_mem {f : α → α} {a b : Option α}
    (h : ∀ x ∈ a, ∀ y, (f x == f y) = (x == y)) : (a.map f == b.map f) = (a == b) := by
  cases a with
  | none => cases b <;> rfl
  | some x =>
    cases b with
    | none => rfl
    | some y => exact h x rfl y

end Reversal

namespace Path

theorem identifiers_reversed (p : Path) : p.reversed.identifiers = p.identifiers.reverse := by
  rw [identifiers, segments_reversed, List.map_reverse, identifiers]

theorem samePath_reversed (p q : Path) : p.reversed.samePath q.reversed = p.samePath q := by
  rw [Bool.eq_iff_iff, samePath_iff, samePath_iff, identifiers_reversed, identifiers_reversed,
    List.reverse_inj]

theorem reversed_beq_reversed (p q : Path) : (p.reversed == q.reversed) = (p == q) := by
  rw [beq_def, beq_def, segments_reversed, segments_reversed, reverse_beq_reverse]

end Path

namespace SelectItem

theorem invertedAll_eq (items : List SelectItem) : invertedAll items = items.map inverted :=
  eq_map_of_cons rfl (fun _ _ => rfl) items

theorem inverted_mk (path : Path) (select : Option Select) :
    inverted ⟨path, select⟩ = ⟨path.reversed, select.map (List.map inverted)⟩ := by
  cases select with
  | none => rfl
  | some items => rw [inverted, invertedAll_eq, Option.map_some]

/-- Inversion keeps select items apart, down to the last nested select. -/
theorem inverted_beq_inverted (i j : SelectItem) : (i.inverted == j.inverted) = (i == j) := by
  induction i using SelectItem.induction generalizing j with
  | item p s ih =>
    obtain ⟨q, t⟩ := j
    rw [inverted_mk, inverted_mk, mk_beq_mk, mk_beq_mk, Path.reversed_beq_reversed,
      optionBeq_map_of_mem]
    exact fun items hitems others => listBeq_map_of_mem (ih items hitems)

end SelectItem

section Union

theorem contains_map_inverted (items : Select) (item : SelectItem) :
    List.contains (items.map SelectItem.inverted) item.inverted = items.contains item := by
  induction items with
  | nil => rfl
  | cons first rest ih =>
    rw [List.map_cons, List.contains_cons, List.contains_cons, ih,
      SelectItem.inverted_beq_inverted]

theorem unite_map_inverted (first second : Select) :
    unite (first.map SelectItem.inverted) (second.map SelectItem.inverted) =
      (unite first second).map SelectItem.inverted := by
  induction second generalizing first with
  | nil => rfl
  | cons item rest ih =>
    rw [List.map_cons, unite, unite, contains_map_inverted, ← ih]
    split <;> simp

theorem joinOptions_map {α : Type} {join : α → α → α} {f : α → α}
    (h : ∀ a b, join (f a) (f b) = f (join a b)) (a b : Option α) :
    joinOptions join (a.map f) (b.map f) = (joinOptions join a b).map f := by
  cases a <;> cases b <;> simp [joinOptions, h]

end Union

namespace Term

theorem invertedAll_eq (terms : List Term) : invertedAll terms = terms.map inverted :=
  eq_map_of_cons rfl (fun _ _ => rfl) terms

theorem inverted_eq (t : Term) :
    t.inverted = ⟨t.path.reversed, t.modifiers, t.select.map (List.map SelectItem.inverted),
      t.expand.map Clause.inverted⟩ := by
  obtain ⟨p, m, s, e⟩ := t
  have hselect : SelectItem.invertedAll = List.map SelectItem.inverted :=
    funext SelectItem.invertedAll_eq
  cases e <;> rw [inverted, hselect] <;> rfl

end Term

theorem Clause.inverted_eq (clause : Clause) : clause.inverted = clause.map Term.inverted :=
  Term.invertedAll_eq clause

namespace Term

theorem inverted_path (t : Term) : t.inverted.path = t.path.reversed := by
  rw [inverted_eq]

theorem inverted_merge (a b : Term) : (a.merge b).inverted = a.inverted.merge b.inverted := by
  have hselect := joinOptions_map unite_map_inverted a.select b.select
  have happend : ∀ x y : Clause, x.inverted ++ y.inverted = (x ++ y).inverted := by
    intro x y
    rw [Clause.inverted_eq, Clause.inverted_eq, Clause.inverted_eq, List.map_append]
  have hexpand := joinOptions_map happend a.expand b.expand
  simp only [inverted_eq, merge]
  exact congrArg₂ (Term.mk a.path.reversed a.modifiers) hselect.symm hexpand.symm

/-- What commutes with inversion may be done to a nested clause before the term is inverted. -/
theorem mapExpand_inverted {f : Clause → Clause} (h : ∀ c : Clause, f c.inverted = (f c).inverted)
    (t : Term) : t.inverted.mapExpand f = (t.mapExpand f).inverted := by
  have hcomm : f ∘ Clause.inverted = Clause.inverted ∘ f := funext h
  simp only [inverted_eq, mapExpand, Option.map_map, hcomm]

end Term

namespace Clause

theorem insert_inverted (t : Term) (clause : Clause) :
    insert t.inverted clause.inverted = (insert t clause).inverted := by
  simp only [inverted_eq]
  induction clause with
  | nil => rfl
  | cons first rest ih =>
    rw [List.map_cons, insert, insert, Term.inverted_path, Term.inverted_path,
      Path.samePath_reversed]
    split
    · rw [List.map_cons, Term.inverted_merge]
    · rw [List.map_cons, ih]

theorem absorb_inverted (terms clause : Clause) :
    absorb terms.inverted clause.inverted = (absorb terms clause).inverted := by
  induction clause generalizing terms with
  | nil => rfl
  | cons t rest ih =>
    change absorb (insert t.inverted terms.inverted) (inverted rest) =
      (absorb (insert t terms) rest).inverted
    rw [insert_inverted, ih]

theorem merged_inverted (clause : Clause) : merged clause.inverted = (merged clause).inverted :=
  absorb_inverted [] clause

theorem combinedTo_inverted (levels : Nat) (clause : Clause) :
    combinedTo levels clause.inverted = (combinedTo levels clause).inverted := by
  induction levels generalizing clause with
  | zero => rfl
  | succ n ih =>
    rw [combinedTo, combinedTo, merged_inverted, inverted_eq, inverted_eq, List.map_map,
      List.map_map]
    apply List.map_congr_left
    intro t _
    exact Term.mapExpand_inverted ih t

/-- Inverting and combining may be done in either order. -/
theorem combined_inverted (clause : Clause) :
    combined clause.inverted = (combined clause).inverted := by
  -- As many levels as either tree has, so that both are combined down to the same one.
  let n := (Summary.ofClause clause.inverted).depth + (Summary.ofClause clause).depth
  calc combined clause.inverted
      = combinedTo n clause.inverted := (combinedTo_eq_combined (by omega)).symm
    _ = (combinedTo n clause).inverted := combinedTo_inverted n clause
    _ = (combined clause).inverted := by rw [combinedTo_eq_combined (by omega)]

end Clause

end ExpandTree
