import ExpandTree.Proofs.Inversion

/-!
Trees turned around. A tree mirrors another if their terms correspond one to one and in order, at
every depth, and each path of the one has the segments of its counterpart in opposite order; no
other option differs. Inversion makes the one tree that mirrors a given one, and a tree turned
around twice is back as it was.
-/
namespace ExpandTree

section Relations

variable {α : Type} {R : α → α → Prop} {f : α → α}

/-- A relation that is the graph of a map for the members of a list is so for the list. -/
theorem forall₂_iff_eq_map {as bs : List α} (h : ∀ a ∈ as, ∀ b, R a b ↔ b = f a) :
    List.Forall₂ R as bs ↔ bs = as.map f := by
  induction as generalizing bs with
  | nil => exact List.forall₂_nil_left_iff
  | cons a as ih =>
    obtain ⟨ha, has⟩ := List.forall_mem_cons.mp h
    cases bs with
    | nil => simp
    | cons b bs => rw [List.forall₂_cons, ha, ih has, List.map_cons, List.cons_eq_cons]

theorem optionRel_iff_eq_map {a b : Option α} (h : ∀ x ∈ a, ∀ y, R x y ↔ y = f x) :
    Option.Rel R a b ↔ b = a.map f := by
  constructor
  · rintro (hxy | _)
    · exact congrArg some ((h _ rfl _).mp hxy)
    · rfl
  · rintro rfl
    cases a with
    | none => exact .none
    | some x => exact .some ((h x rfl _).mpr rfl)

/-- A map that undoes itself on the members of a list undoes itself on the list. -/
theorem map_map_eq_self {as : List α} (h : ∀ a ∈ as, f (f a) = a) : (as.map f).map f = as := by
  rw [List.map_map]
  exact (List.map_congr_left h).trans (List.map_id as)

theorem optionMap_map_eq_self {a : Option α} (h : ∀ x ∈ a, f (f x) = x) :
    (a.map f).map f = a := by
  cases a with
  | none => rfl
  | some x => exact congrArg some (h x rfl)

end Relations

namespace Path

theorem eq_of_segments_eq {p q : Path} (h : p.segments = q.segments) : p = q := by
  have hp := ofSegments?_segments p
  rw [h, ofSegments?_segments] at hp
  exact (Option.some.inj hp).symm

theorem reversed_reversed (p : Path) : p.reversed.reversed = p := by
  apply eq_of_segments_eq
  rw [segments_reversed, segments_reversed, List.reverse_reverse]

/-- The same segments, each with its identifier, kind and keys, in opposite order. -/
def Mirrors (p q : Path) : Prop := q.segments = p.segments.reverse

theorem mirrors_iff {p q : Path} : p.Mirrors q ↔ q = p.reversed := by
  rw [Mirrors, ← segments_reversed]
  exact ⟨eq_of_segments_eq, congrArg segments⟩

end Path

/-- Paths in opposite order, in nested selects as well. -/
inductive SelectItem.Mirrors : SelectItem → SelectItem → Prop where
  | item {p q : Path} {s t : Option Select} : p.Mirrors q →
      Option.Rel (List.Forall₂ SelectItem.Mirrors) s t → SelectItem.Mirrors ⟨p, s⟩ ⟨q, t⟩

/-- Paths in opposite order, in select and nested clause as well; all else is the same. -/
inductive Term.Mirrors : Term → Term → Prop where
  | term {p q : Path} {m : Modifiers} {s t : Option Select} {e f : Option Clause} : p.Mirrors q →
      Option.Rel (List.Forall₂ SelectItem.Mirrors) s t →
      Option.Rel (List.Forall₂ Term.Mirrors) e f → Term.Mirrors ⟨p, m, s, e⟩ ⟨q, m, t, f⟩

/-- Terms that mirror one another, one by one. -/
def Clause.Mirrors (clause other : Clause) : Prop := List.Forall₂ Term.Mirrors clause other

namespace SelectItem

theorem mk_mirrors_iff {p : Path} {s : Option Select} {j : SelectItem} :
    Mirrors ⟨p, s⟩ j ↔ p.Mirrors j.path ∧ Option.Rel (List.Forall₂ Mirrors) s j.select := by
  constructor
  · rintro ⟨hpath, hselect⟩
    exact ⟨hpath, hselect⟩
  · obtain ⟨q, t⟩ := j
    rintro ⟨hpath, hselect⟩
    exact .item hpath hselect

/-- An inverted item is the one item that mirrors it, down to the last nested select. -/
theorem mirrors_iff {i j : SelectItem} : i.Mirrors j ↔ j = i.inverted := by
  induction i using SelectItem.induction generalizing j with
  | item p s ih =>
    have hselect : ∀ t, Option.Rel (List.Forall₂ Mirrors) s t ↔ t = s.map (List.map inverted) :=
      fun t => optionRel_iff_eq_map fun items hitems others =>
        forall₂_iff_eq_map fun i hi _ => ih items hitems i hi
    obtain ⟨q, t⟩ := j
    rw [mk_mirrors_iff, Path.mirrors_iff, hselect, inverted_mk, SelectItem.mk.injEq]

theorem inverted_inverted (i : SelectItem) : i.inverted.inverted = i := by
  induction i using SelectItem.induction with
  | item p s ih =>
    rw [inverted_mk, inverted_mk, Path.reversed_reversed, optionMap_map_eq_self]
    exact fun items hitems => map_map_eq_self (ih items hitems)

end SelectItem

theorem Clause.inverted_eq_map : Clause.inverted = List.map Term.inverted := funext inverted_eq

theorem selectRel_mirrors_iff {s t : Option Select} :
    Option.Rel (List.Forall₂ SelectItem.Mirrors) s t ↔
      t = s.map (List.map SelectItem.inverted) :=
  optionRel_iff_eq_map fun _ _ _ => forall₂_iff_eq_map fun _ _ _ => SelectItem.mirrors_iff

namespace Term

theorem mk_mirrors_iff {p : Path} {m : Modifiers} {s : Option Select} {e : Option Clause}
    {u : Term} :
    Mirrors ⟨p, m, s, e⟩ u ↔ p.Mirrors u.path ∧ u.modifiers = m ∧
      Option.Rel (List.Forall₂ SelectItem.Mirrors) s u.select ∧
        Option.Rel (List.Forall₂ Mirrors) e u.expand := by
  constructor
  · rintro ⟨hpath, hselect, hexpand⟩
    exact ⟨hpath, rfl, hselect, hexpand⟩
  · obtain ⟨q, n, t, f⟩ := u
    rintro ⟨hpath, rfl, hselect, hexpand⟩
    exact .term hpath hselect hexpand

/-- An inverted term is the one term that mirrors it, down to the last nested clause. -/
theorem mirrors_iff {t u : Term} : t.Mirrors u ↔ u = t.inverted := by
  induction t using Term.induction generalizing u with
  | term p m s e ih =>
    have hexpand : ∀ f, Option.Rel (List.Forall₂ Mirrors) e f ↔ f = e.map Clause.inverted := by
      intro f
      rw [Clause.inverted_eq_map]
      exact optionRel_iff_eq_map fun terms hterms _ =>
        forall₂_iff_eq_map fun t ht _ => ih terms hterms t ht
    obtain ⟨q, n, t, f⟩ := u
    rw [mk_mirrors_iff, Path.mirrors_iff, selectRel_mirrors_iff, hexpand, inverted_eq,
      Term.mk.injEq]

theorem inverted_inverted (t : Term) : t.inverted.inverted = t := by
  induction t using Term.induction with
  | term p m s e ih =>
    have hselect : (s.map (List.map SelectItem.inverted)).map (List.map SelectItem.inverted) = s :=
      optionMap_map_eq_self fun _ _ => map_map_eq_self fun i _ => i.inverted_inverted
    have hexpand : (e.map Clause.inverted).map Clause.inverted = e := by
      rw [Clause.inverted_eq_map]
      exact optionMap_map_eq_self fun terms hterms => map_map_eq_self (ih terms hterms)
    rw [inverted_eq, inverted_eq, Path.reversed_reversed, hselect, hexpand]

end Term

namespace Clause

theorem mirrors_iff {clause other : Clause} : clause.Mirrors other ↔ other = clause.inverted := by
  rw [inverted_eq]
  exact forall₂_iff_eq_map fun _ _ _ => Term.mirrors_iff

/-- Inversion undoes itself. The inverted tree mirrors the tree at every depth, and no other tree
does. -/
theorem inverted_involutive_mirrors (clause : Clause) :
    clause.inverted.inverted = clause ∧
      clause.Mirrors clause.inverted ∧ ∀ other, clause.Mirrors other → other = clause.inverted := by
  refine ⟨?_, mirrors_iff.mpr rfl, fun other => mirrors_iff.mp⟩
  rw [inverted_eq, inverted_eq]
  exact map_map_eq_self fun t _ => t.inverted_inverted

end Clause

end ExpandTree
