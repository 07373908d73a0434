import ExpandTree.Proofs.Merging

/-!
Combining all levels of a clause. Merging makes no tree deeper, so the bound on the levels is never
what ends the recursion: a combined clause is the merged one with every nested clause combined.
-/
namespace ExpandTree

namespace Summary

theorem depth_ofTerm (t : Term) :
    (ofTerm t).depth = ((t.expand.map fun terms => (ofClause terms).depth).getD 0) + 1 := by
  obtain ⟨p, m, s, e⟩ := t
  cases e <;> rfl

theorem depth_cons (t : Term) (clause : Clause) :
    (ofClause (t :: clause)).depth = max (ofTerm t).depth (ofClause clause).depth := rfl

theorem depth_append (a b : Clause) :
    (ofClause (a ++ b)).depth = max (ofClause a).depth (ofClause b).depth := by
  induction a with
  | nil => exact (Nat.zero_max _).symm
  | cons t rest ih => rw [List.cons_append, depth_cons, depth_cons, ih, Nat.max_assoc]

theorem depth_le_of_mem {t : Term} {clause : Clause} (h : t ∈ clause) :
    (ofTerm t).depth ≤ (ofClause clause).depth := by
  induction clause with
  | nil => cases h
  | cons first rest ih =>
    rw [depth_cons]
    rcases List.mem_cons.mp h with rfl | h
    · exact Nat.le_max_left ..
    · exact Nat.le_trans (ih h) (Nat.le_max_right ..)

theorem depth_merge (a b : Term) :
    (ofTerm (a.merge b)).depth = max (ofTerm a).depth (ofTerm b).depth := by
  simp only [depth_ofTerm, Term.merge]
  cases a.expand with
  | none => cases b.expand <;> simp [joinOptions]
  | some terms =>
    cases b.expand with
    | none => simp [joinOptions]
    | some more =>
      change (ofClause (terms ++ more)).depth + 1 = _
      rw [depth_append]
      exact (Nat.add_max_add_right ..).symm

theorem depth_insert (t : Term) (clause : Clause) :
    (ofClause (Clause.insert t clause)).depth = max (ofClause clause).depth (ofTerm t).depth := by
  induction clause with
  | nil => rw [Clause.insert, depth_cons, Nat.max_comm]
  | cons first rest ih =>
    unfold Clause.insert
    split
    · rw [depth_cons, depth_cons, depth_merge, Nat.max_right_comm]
    · rw [depth_cons, depth_cons, ih, Nat.max_assoc]

theorem depth_absorb (terms clause : Clause) :
    (ofClause (Clause.absorb terms clause)).depth =
      max (ofClause terms).depth (ofClause clause).depth := by
  induction clause generalizing terms with
  | nil => exact (Nat.max_zero _).symm
  | cons t rest ih =>
    change (ofClause (Clause.absorb (Clause.insert t terms) rest)).depth = _
    rw [ih, depth_insert, depth_cons, Nat.max_assoc]

theorem depth_merged (clause : Clause) :
    (ofClause clause.merged).depth = (ofClause clause).depth := by
  unfold Clause.merged
  exact (depth_absorb [] clause).trans (Nat.zero_max _)

end Summary

namespace Clause

theorem combinedTo_nil (levels : Nat) : combinedTo levels [] = [] := by
  cases levels <;> rfl

/-- Nested clauses of a merged clause are less deep than the clause. -/
theorem depth_lt_of_mem_merged {t : Term} {terms clause : Clause} (ht : t ∈ merged clause)
    (hterms : t.expand = some terms) :
    (Summary.ofClause terms).depth < (Summary.ofClause clause).depth := by
  have hdepth := Summary.depth_le_of_mem ht
  rw [Summary.depth_merged, Summary.depth_ofTerm, hterms] at hdepth
  exact hdepth

/-- What is done to the nested clauses of a merged clause is done to clauses less deep. -/
theorem mapExpand_merged_congr {f g : Clause → Clause} {clause : Clause}
    (h : ∀ terms, (Summary.ofClause terms).depth < (Summary.ofClause clause).depth →
      f terms = g terms) :
    (merged clause).map (Term.mapExpand f) = (merged clause).map (Term.mapExpand g) := by
  apply List.map_congr_left
  intro t ht
  unfold Term.mapExpand
  cases hterms : t.expand with
  | none => rfl
  | some terms =>
    rw [Option.map_some, Option.map_some, h terms (depth_lt_of_mem_merged ht hterms)]

theorem combinedTo_congr {n m : Nat} {clause : Clause}
    (hn : (Summary.ofClause clause).depth ≤ n) (hm : (Summary.ofClause clause).depth ≤ m) :
    combinedTo n clause = combinedTo m clause := by
  induction n generalizing m clause with
  | zero =>
    cases clause with
    | nil => rw [combinedTo_nil, combinedTo_nil]
    | cons t rest =>
      rw [Summary.depth_cons, Summary.depth_ofTerm] at hn
      omega
  | succ n ih =>
    cases m with
    | zero =>
      cases clause with
      | nil => rw [combinedTo_nil, combinedTo_nil]
      | cons t rest =>
        rw [Summary.depth_cons, Summary.depth_ofTerm] at hm
        omega
    | succ m =>
      apply mapExpand_merged_congr
      intro terms hlt
      exact ih (by omega) (by omega)

theorem combinedTo_eq_combined {levels : Nat} {clause : Clause}
    (h : (Summary.ofClause clause).depth ≤ levels) : combinedTo levels clause = combined clause :=
  combinedTo_congr h (Nat.le_refl _)

/-- Combining merges a clause and combines every nested clause. -/
theorem combined_eq (clause : Clause) :
    combined clause = (merged clause).map (Term.mapExpand combined) := by
  rw [← combinedTo_eq_combined (Nat.le_succ (Summary.ofClause clause).depth)]
  apply mapExpand_merged_congr
  intro terms hlt
  exact combinedTo_eq_combined (Nat.le_of_lt hlt)

/-- The recursion of combining: a clause may rely on the nested clauses of what it merges to. -/
theorem combined_induction {motive : Clause → Prop}
    (merged : ∀ clause, (∀ t ∈ merged clause, motive t.nested) → motive clause)
    (clause : Clause) : motive clause := by
  have aux : ∀ n, ∀ c : Clause, (Summary.ofClause c).depth = n → motive c := by
    intro n
    induction n using Nat.strongRecOn with
    | ind n ih =>
      intro c hc
      apply merged c
      intro t ht
      unfold Term.nested
      cases hterms : t.expand with
      | none => exact merged [] fun u hu => absurd hu List.not_mem_nil
      | some terms =>
        have hlt := depth_lt_of_mem_merged ht hterms
        exact ih (Summary.ofClause terms).depth (by omega) terms rfl
  exact aux (Summary.ofClause clause).depth clause rfl

section Pieces

/-- A treatment of nested clauses that may be applied in pieces. -/
structure Piecewise (f : Clause → Clause) : Prop where
  nil : f [] = []
  append : ∀ a b, f (a ++ b) = f (f a ++ f b)

variable {f : Clause → Clause} (hf : Piecewise f)

include hf

theorem Piecewise.again (clause : Clause) : f (f clause) = f clause := by
  have h := hf.append clause []
  rw [hf.nil, List.append_nil, List.append_nil] at h
  exact h.symm

theorem Piecewise.mapExpand_again (t : Term) :
    (t.mapExpand f).mapExpand f = t.mapExpand f := by
  have h : f ∘ f = f := funext hf.again
  simp only [Term.mapExpand, Option.map_map, h]

theorem Piecewise.map_joinOptions (a b : Option Clause) :
    (joinOptions List.append (a.map f) (b.map f)).map f = (joinOptions List.append a b).map f := by
  cases a with
  | none => cases b <;> simp [joinOptions, hf.again]
  | some terms =>
    cases b with
    | none => simp [joinOptions, hf.again]
    | some more => exact congrArg some (hf.append terms more).symm

theorem Piecewise.mapExpand_merge {s s' t t' : Term} (hs : s.mapExpand f = s'.mapExpand f)
    (ht : t.mapExpand f = t'.mapExpand f) :
    (s.merge t).mapExpand f = (s'.merge t').mapExpand f := by
  simp only [Term.mapExpand, Term.mk.injEq] at hs ht
  obtain ⟨hpath, hmodifiers, hselect, hexpand⟩ := hs
  simp only [Term.mapExpand, Term.merge, ← hf.map_joinOptions s.expand, hexpand, hpath, hmodifiers,
    hselect, ht, hf.map_joinOptions]

theorem Piecewise.map_insert {as bs : Clause} {s t : Term}
    (hmap : as.map (Term.mapExpand f) = bs.map (Term.mapExpand f))
    (ht : s.mapExpand f = t.mapExpand f) :
    (insert s as).map (Term.mapExpand f) = (insert t bs).map (Term.mapExpand f) := by
  induction as generalizing bs with
  | nil =>
    obtain rfl := List.map_eq_nil_iff.mp hmap.symm
    exact congrArg (fun u => [u]) ht
  | cons a as ih =>
    cases bs with
    | nil => cases hmap
    | cons b bs =>
      obtain ⟨hhead, htail⟩ := List.cons.inj hmap
      have hpath : (a.mapExpand f).path = (b.mapExpand f).path := congrArg Term.path hhead
      have hpath' : (s.mapExpand f).path = (t.mapExpand f).path := congrArg Term.path ht
      simp only [Term.mapExpand] at hpath hpath'
      rw [insert, insert, hpath, hpath']
      split
      · exact List.cons_eq_cons.mpr ⟨hf.mapExpand_merge hhead ht, htail⟩
      · exact List.cons_eq_cons.mpr ⟨hhead, ih htail⟩

theorem Piecewise.map_absorb {as bs xs ys : Clause}
    (hmap : as.map (Term.mapExpand f) = bs.map (Term.mapExpand f))
    (hmore : xs.map (Term.mapExpand f) = ys.map (Term.mapExpand f)) :
    (absorb as xs).map (Term.mapExpand f) = (absorb bs ys).map (Term.mapExpand f) := by
  induction xs generalizing as bs ys with
  | nil =>
    obtain rfl := List.map_eq_nil_iff.mp hmore.symm
    exact hmap
  | cons x xs ih =>
    cases ys with
    | nil => cases hmore
    | cons y ys =>
      obtain ⟨hhead, htail⟩ := List.cons.inj hmore
      change (absorb (insert x as) xs).map _ = (absorb (insert y bs) ys).map _
      exact ih (hf.map_insert hmap hhead) htail

/-- Nested clauses may be treated before a clause is merged, as long as they are treated after. -/
theorem Piecewise.map_merged_append (a b : Clause) :
    (merged (a ++ b)).map (Term.mapExpand f) =
      (merged ((merged a).map (Term.mapExpand f) ++ (merged b).map (Term.mapExpand f))).map
        (Term.mapExpand f) := by
  have hagain : Term.mapExpand f ∘ Term.mapExpand f = Term.mapExpand f :=
    funext hf.mapExpand_again
  rw [merged_append]
  refine hf.map_absorb rfl ?_
  simp only [List.map_append, List.map_map, hagain]

end Pieces

theorem piecewise_combinedTo (levels : Nat) : Piecewise (combinedTo levels) := by
  induction levels with
  | zero => exact ⟨rfl, fun _ _ => rfl⟩
  | succ n ih => exact ⟨rfl, ih.map_merged_append⟩

theorem piecewise_combined : Piecewise combined where
  nil := rfl
  append a b := by
    let n := (Summary.ofClause a).depth + (Summary.ofClause b).depth +
      (Summary.ofClause (a ++ b)).depth + (Summary.ofClause (combined a ++ combined b)).depth
    have ha : combinedTo n a = combined a := combinedTo_eq_combined (by omega)
    have hb : combinedTo n b = combined b := combinedTo_eq_combined (by omega)
    calc combined (a ++ b) = combinedTo n (a ++ b) := (combinedTo_eq_combined (by omega)).symm
      _ = combinedTo n (combinedTo n a ++ combinedTo n b) := (piecewise_combinedTo n).append a b
      _ = combinedTo n (combined a ++ combined b) := by rw [ha, hb]
      _ = combined (combined a ++ combined b) := combinedTo_eq_combined (by omega)

/-- Combining two clauses on their own and then together combines them at once. -/
theorem combined_append (a b : Clause) :
    combined (a ++ b) = combined (combined a ++ combined b) :=
  piecewise_combined.append a b

end Clause

end ExpandTree
