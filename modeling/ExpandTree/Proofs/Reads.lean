import ExpandTree.Document
import ExpandTree.Document.Reader
import ExpandTree.Proofs.Induction
import Mathlib.Data.List.Forall2

/-!
Readings that succeed. A sequence of readings succeeds when each of them does, so what is known of
the result of a whole is known of the results of its parts.
-/
namespace ExpandTree

section Outcomes

variable {ε ε' α β : Type}

@[simp] theorem ok_bind (a : α) (f : α → Except ε β) : (Except.ok a >>= f) = f a := rfl

@[simp] theorem pure_eq_ok (a : α) : (pure a : Except ε α) = .ok a := rfl

theorem bind_eq_ok_iff {x : Except ε α} {f : α → Except ε β} {b : β} :
    (x >>= f) = .ok b ↔ ∃ a, x = .ok a ∧ f a = .ok b := by
  cases x with
  | error e =>
    constructor
    · intro h
      cases h
    · intro h
      obtain ⟨a, h, -⟩ := h
      cases h
  | ok a =>
    constructor
    · intro h
      exact ⟨a, rfl, h⟩
    · intro h
      obtain ⟨a', h, hb⟩ := h
      cases h
      exact hb

theorem map_eq_ok_iff {x : Except ε α} {f : α → β} {b : β} :
    x.map f = .ok b ↔ ∃ a, x = .ok a ∧ f a = b := by
  cases x <;> simp [Except.map]

theorem mapError_eq_ok_iff {x : Except ε α} {f : ε → ε'} {a : α} :
    x.mapError f = .ok a ↔ x = .ok a := by
  cases x <;> simp [Except.mapError]

/-- Reading a list reads its members, one by one. -/
theorem mapM_eq_ok_iff {f : α → Except ε β} {as : List α} {bs : List β} :
    as.mapM f = .ok bs ↔ List.Forall₂ (fun a b => f a = .ok b) as bs := by
  induction as generalizing bs with
  | nil =>
    rw [List.mapM_nil, List.forall₂_nil_left_iff]
    exact ⟨fun h => by cases h; rfl, fun h => by rw [h]; rfl⟩
  | cons a as ih =>
    rw [List.mapM_cons, bind_eq_ok_iff, List.forall₂_cons_left_iff]
    constructor
    · intro h
      obtain ⟨b, hb, h⟩ := h
      obtain ⟨rest, hrest, h⟩ := bind_eq_ok_iff.mp h
      cases h
      exact ⟨b, rest, hb, ih.mp hrest, rfl⟩
    · intro h
      obtain ⟨b, rest, hb, hrest, rfl⟩ := h
      exact ⟨b, hb, bind_eq_ok_iff.mpr ⟨rest, ih.mpr hrest, rfl⟩⟩

/-- What stands in a list that was read was read from an item. -/
theorem exists_of_mem_of_mapM {f : α → Except ε β} {as : List α} {bs : List β}
    (h : as.mapM f = .ok bs) {b : β} (hb : b ∈ bs) : ∃ a, f a = .ok b := by
  have hread := mapM_eq_ok_iff.mp h
  induction hread with
  | nil => exact absurd hb List.not_mem_nil
  | cons hhead hrest ih =>
    rcases List.mem_cons.mp hb with rfl | hb
    · exact ⟨_, hhead⟩
    · exact ih (mapM_eq_ok_iff.mpr hrest) hb

/-- What stands in a list that is read is read as something of the result. -/
theorem exists_mem_of_mapM {f : α → Except ε β} {as : List α} {bs : List β}
    (h : as.mapM f = .ok bs) {a : α} (ha : a ∈ as) : ∃ b ∈ bs, f a = .ok b := by
  have hread := mapM_eq_ok_iff.mp h
  induction hread with
  | nil => exact absurd ha List.not_mem_nil
  | cons hhead hrest ih =>
    rcases List.mem_cons.mp ha with rfl | ha
    · exact ⟨_, List.mem_cons_self, hhead⟩
    · obtain ⟨b, hb, hread⟩ := ih (mapM_eq_ok_iff.mpr hrest) ha
      exact ⟨b, List.mem_cons_of_mem _ hb, hread⟩

theorem optionMapM_some {f : α → Except ε β} {a : α} :
    (some a).mapM f = (f a).map some := rfl

theorem exists_of_mem_of_optionMapM {f : α → Except ε β} {o : Option α} {o' : Option β}
    (h : o.mapM f = .ok o') {b : β} (hb : b ∈ o') : ∃ a, f a = .ok b := by
  cases o with
  | none =>
    cases h
    contradiction
  | some a =>
    rw [optionMapM_some] at h
    obtain ⟨b', hread, rfl⟩ := map_eq_ok_iff.mp h
    cases hb
    exact ⟨a, hread⟩

/-- A list is read when each of its members is. -/
theorem exists_mapM_ok_iff {f : α → Except ε β} {as : List α} :
    (∃ bs, as.mapM f = .ok bs) ↔ ∀ a ∈ as, ∃ b, f a = .ok b := by
  induction as with
  | nil => exact ⟨fun _ a ha => absurd ha List.not_mem_nil, fun _ => ⟨[], rfl⟩⟩
  | cons a as ih =>
    simp only [List.forall_mem_cons, ← ih, mapM_eq_ok_iff, List.forall₂_cons_left_iff]
    constructor
    · intro h
      obtain ⟨_, b, bs, hb, hbs, -⟩ := h
      exact ⟨⟨b, hb⟩, bs, hbs⟩
    · intro h
      obtain ⟨⟨b, hb⟩, bs, hbs⟩ := h
      exact ⟨b :: bs, b, bs, hb, hbs, rfl⟩

theorem exists_optionMapM_ok_iff {f : α → Except ε β} {o : Option α} :
    (∃ o', o.mapM f = .ok o') ↔ ∀ a ∈ o, ∃ b, f a = .ok b := by
  cases o with
  | none => exact ⟨fun _ a ha => absurd ha (Option.not_mem_none a), fun _ => ⟨none, rfl⟩⟩
  | some a =>
    simp only [optionMapM_some, map_eq_ok_iff, Option.mem_some_iff, forall_eq']
    constructor
    · intro h
      obtain ⟨_, b, hb, -⟩ := h
      exact ⟨b, hb⟩
    · intro h
      obtain ⟨b, hb⟩ := h
      exact ⟨some b, b, hb, rfl⟩

theorem absentOr_map {f : α → Reads β} (o : Option α) : absentOr (o.map f) = o.mapM f := by
  cases o with
  | none => rfl
  | some a => exact optionMapM_some.symm

end Outcomes

/-- What is written for a value reads back as an equal one. -/
def Rereads {ε α : Type} [BEq α] (read : Json → Except ε α) (write : α → Json) (a : α) : Prop :=
  ∃ b, read (write a) = .ok b ∧ b == a

section Rereading

variable {ε α : Type} [BEq α] {read : Json → Except ε α} {write : α → Json}

/-- A list reads back as an equal one when its members read back as equals. -/
theorem exists_mapM_iff {as : List α} :
    (∃ bs, (as.map write).mapM read = .ok bs ∧ bs == as) ↔ ∀ a ∈ as, Rereads read write a := by
  simp only [mapM_eq_ok_iff, List.forall₂_map_left_iff]
  induction as with
  | nil => exact ⟨fun _ a h => absurd h List.not_mem_nil, fun _ => ⟨[], List.Forall₂.nil, rfl⟩⟩
  | cons a as ih =>
    rw [List.forall_mem_cons, ← ih]
    constructor
    · intro h
      obtain ⟨bs, hread, heq⟩ := h
      obtain ⟨b, rest, hb, hrest, rfl⟩ := List.forall₂_cons_left_iff.mp hread
      rw [List.cons_beq_cons, Bool.and_eq_true] at heq
      exact ⟨⟨b, hb, heq.1⟩, rest, hrest, heq.2⟩
    · intro h
      obtain ⟨⟨b, hb, heq⟩, rest, hrest, heqs⟩ := h
      exact ⟨b :: rest, List.Forall₂.cons hb hrest, by simp [heq, heqs]⟩

/-- So does an optional value. -/
theorem exists_optionMapM_iff {o : Option α} :
    (∃ o', (o.map write).mapM read = .ok o' ∧ o' == o) ↔ ∀ a ∈ o, Rereads read write a := by
  cases o with
  | none => exact ⟨fun _ a h => (Option.not_mem_none a h).elim, fun _ => ⟨none, rfl, rfl⟩⟩
  | some a =>
    simp only [Option.map_some, optionMapM_some, map_eq_ok_iff, Option.mem_some_iff, forall_eq']
    constructor
    · intro h
      obtain ⟨o', ⟨b, hb, rfl⟩, heq⟩ := h
      exact ⟨b, hb, heq⟩
    · intro h
      obtain ⟨b, hb, heq⟩ := h
      exact ⟨some b, ⟨b, hb, rfl⟩, heq⟩

end Rereading

/-- A reading that goes through a list as `mapM` does is `mapM`. -/
theorem eq_mapM_of_cons {ε α β : Type} {f : List α → Except ε (List β)} {g : α → Except ε β}
    (nil : f [] = .ok [])
    (cons : ∀ a as, f (a :: as) = do return (← g a) :: (← f as)) (as : List α) :
    f as = as.mapM g := by
  induction as with
  | nil => exact nil
  | cons a as ih => rw [cons, ih, List.mapM_cons]

namespace Expr

theorem toJsons_eq_map (es : List Expr) : toJsons es = es.map toJson :=
  eq_map_of_cons rfl (fun _ _ => rfl) es

theorem ofItems_eq_mapM (items : List Json) : ofItems items = items.mapM ofJson :=
  eq_mapM_of_cons (f := ofItems) rfl (fun _ _ => rfl) items

theorem aggregateOfItems_eq_mapM (items : List Json) :
    aggregateOfItems items = items.mapM aggregationOfJson :=
  eq_mapM_of_cons (f := aggregateOfItems) rfl (fun _ _ => rfl) items

end Expr

namespace SelectItem

theorem toJsons_eq_map (items : List SelectItem) : toJsons items = items.map toJson :=
  eq_map_of_cons rfl (fun _ _ => rfl) items

theorem ofItems_eq_mapM (items : List Json) : ofItems items = items.mapM ofJson :=
  eq_mapM_of_cons (f := ofItems) rfl (fun _ _ => rfl) items

end SelectItem

namespace Term

theorem toJsons_eq_map (terms : List Term) : toJsons terms = terms.map toJson :=
  eq_map_of_cons rfl (fun _ _ => rfl) terms

theorem ofItems_eq_mapM (items : List Json) : ofItems items = items.mapM ofJson :=
  eq_mapM_of_cons (f := ofItems) rfl (fun _ _ => rfl) items

end Term

end ExpandTree
