import ExpandTree.Proofs.Induction

/-!
Equality of trees. It is symmetric and transitive on every type of tree, but not reflexive: a NaN
differs from itself, and with it every tree that holds one. Equality of a compound is equality of
its parts, so the laws are stated once for lists, options and pairs and carried over from there.
-/
namespace ExpandTree

section Containers

variable {α β : Type} [BEq α] [BEq β]

theorem listBeq_symm_of_mem {as bs : List α} (h : ∀ a ∈ as, ∀ b, a == b → b == a)
    (hab : as == bs) : bs == as := by
  induction as generalizing bs with
  | nil => cases bs with
    | nil => rfl
    | cons b bs => contradiction
  | cons a as ih =>
    cases bs with
    | nil => contradiction
    | cons b bs =>
      obtain ⟨ha, has⟩ := List.forall_mem_cons.mp h
      simp only [List.cons_beq_cons, Bool.and_eq_true] at hab ⊢
      exact ⟨ha b hab.1, ih has hab.2⟩

theorem listBeq_trans_of_mem {as bs cs : List α}
    (h : ∀ a ∈ as, ∀ b c, a == b → b == c → a == c) (hab : as == bs) (hbc : bs == cs) :
    as == cs := by
  induction as generalizing bs cs with
  | nil => cases bs with
    | nil => exact hbc
    | cons b bs => contradiction
  | cons a as ih =>
    cases bs with
    | nil => contradiction
    | cons b bs =>
      cases cs with
      | nil => contradiction
      | cons c cs =>
        obtain ⟨ha, has⟩ := List.forall_mem_cons.mp h
        simp only [List.cons_beq_cons, Bool.and_eq_true] at hab hbc ⊢
        exact ⟨ha b c hab.1 hbc.1, ih has hab.2 hbc.2⟩

theorem optionBeq_symm_of_mem {a b : Option α} (h : ∀ x ∈ a, ∀ y, x == y → y == x)
    (hab : a == b) : b == a := by
  cases a with
  | none => cases b <;> first | rfl | contradiction
  | some x =>
    cases b with
    | none => contradiction
    | some y => exact h x rfl y hab

theorem optionBeq_trans_of_mem {a b c : Option α}
    (h : ∀ x ∈ a, ∀ y z, x == y → y == z → x == z) (hab : a == b) (hbc : b == c) : a == c := by
  cases a with
  | none => cases b <;> first | exact hbc | contradiction
  | some x =>
    cases b with
    | none => contradiction
    | some y =>
      cases c with
      | none => contradiction
      | some z => exact h x rfl y z hab hbc

/-- A comparison of lists that goes member by member is the equality of lists. -/
theorem eq_listBeq {f : List α → List α → Bool} (nil : f [] [] = true)
    (left : ∀ a as, f (a :: as) [] = false) (right : ∀ b bs, f [] (b :: bs) = false)
    (cons : ∀ a as b bs, f (a :: as) (b :: bs) = (a == b && f as bs)) (as bs : List α) :
    f as bs = (as == bs) := by
  induction as generalizing bs with
  | nil => cases bs with
    | nil => exact nil
    | cons b bs => exact right b bs
  | cons a as ih =>
    cases bs with
    | nil => exact left a as
    | cons b bs => rw [cons, List.cons_beq_cons, ih]

instance partialEquivBEq_list [PartialEquivBEq α] : PartialEquivBEq (List α) where
  symm := listBeq_symm_of_mem fun _ _ _ => BEq.symm
  trans := listBeq_trans_of_mem fun _ _ _ _ => BEq.trans

instance partialEquivBEq_option [PartialEquivBEq α] : PartialEquivBEq (Option α) where
  symm := optionBeq_symm_of_mem fun _ _ _ => BEq.symm
  trans := optionBeq_trans_of_mem fun _ _ _ _ => BEq.trans

instance partialEquivBEq_prod [PartialEquivBEq α] [PartialEquivBEq β] :
    PartialEquivBEq (α × β) where
  symm hab := by
    obtain ⟨h₁, h₂⟩ := (Bool.and_eq_true _ _).mp hab
    exact (Bool.and_eq_true _ _).mpr ⟨BEq.symm h₁, BEq.symm h₂⟩
  trans hab hbc := by
    obtain ⟨h₁, h₂⟩ := (Bool.and_eq_true _ _).mp hab
    obtain ⟨h₃, h₄⟩ := (Bool.and_eq_true _ _).mp hbc
    exact (Bool.and_eq_true _ _).mpr ⟨BEq.trans h₁ h₃, BEq.trans h₂ h₄⟩

/-- A type whose equality compares the images in another. -/
theorem partialEquivBEq_of_image [PartialEquivBEq β] (f : α → β)
    (h : ∀ a b, (a == b) = (f a == f b)) : PartialEquivBEq α where
  symm {a b} hab := by
    rw [h] at hab ⊢
    exact BEq.symm hab
  trans {a b c} hab hbc := by
    rw [h] at hab hbc ⊢
    exact BEq.trans hab hbc

end Containers

namespace Double

theorem beq_trans {a b c : Double} (hab : a == b) (hbc : b == c) : a == c := by
  simp only [beq_def, Bool.and_eq_true, Bool.or_eq_true, beq_iff_eq] at hab hbc ⊢
  obtain ⟨⟨ha, -⟩, hab⟩ := hab
  obtain ⟨⟨-, hc⟩, hbc⟩ := hbc
  refine ⟨⟨ha, hc⟩, ?_⟩
  rcases hab with hab | hab
  · have heq : a = b := congrArg Double.mk hab
    rwa [heq]
  · rcases hbc with hbc | hbc
    · have heq : b = c := congrArg Double.mk hbc
      exact Or.inr (heq ▸ hab)
    · exact Or.inr ⟨hab.1, hbc.2⟩

instance : PartialEquivBEq Double where
  symm {a b} hab := by rwa [beq_comm]
  trans := beq_trans

end Double

namespace Decimal

theorem denominator_ne_zero (d : Decimal) : (d.denominator : Int) ≠ 0 := by
  have h : 0 < d.denominator := Nat.pow_pos (by decide)
  omega

theorem beq_trans {a b c : Decimal} (hab : a == b) (hbc : b == c) : a == c := by
  simp only [beq_def, beq_iff_eq] at hab hbc ⊢
  apply Int.eq_of_mul_eq_mul_right b.denominator_ne_zero
  calc a.numerator * c.denominator * b.denominator
      = a.numerator * b.denominator * c.denominator := Int.mul_right_comm ..
    _ = b.numerator * c.denominator * a.denominator := by rw [hab, Int.mul_right_comm]
    _ = c.numerator * a.denominator * b.denominator := by rw [hbc, Int.mul_right_comm]

instance : PartialEquivBEq Decimal where
  symm {a b} hab := by rwa [beq_comm]
  trans := beq_trans

end Decimal

namespace Literal

instance : PartialEquivBEq Literal where
  symm {a b} hab := by
    cases b with
    | null => cases a <;> first | contradiction | rfl
    | boolean => cases a <;> first | contradiction | exact BEq.symm (α := Bool) hab
    | int64 => cases a <;> first | contradiction | exact BEq.symm (α := Int64) hab
    | double => cases a <;> first | contradiction | exact BEq.symm (α := Double) hab
    | decimal => cases a <;> first | contradiction | exact BEq.symm (α := Decimal) hab
    | string => cases a <;> first | contradiction | exact BEq.symm (α := String) hab
  trans {a b c} hab hbc := by
    cases b with
    | null => cases a <;> cases c <;> first | contradiction | rfl
    | boolean =>
      cases a <;> cases c <;> first | contradiction | exact BEq.trans (α := Bool) hab hbc
    | int64 =>
      cases a <;> cases c <;> first | contradiction | exact BEq.trans (α := Int64) hab hbc
    | double =>
      cases a <;> cases c <;> first | contradiction | exact BEq.trans (α := Double) hab hbc
    | decimal =>
      cases a <;> cases c <;> first | contradiction | exact BEq.trans (α := Decimal) hab hbc
    | string =>
      cases a <;> cases c <;> first | contradiction | exact BEq.trans (α := String) hab hbc

def isNaN : Literal → Bool
  | .double d => d.isNaN
  | _ => false

theorem beq_self (l : Literal) : (l == l) = !l.isNaN := by
  cases l with
  | double d => exact d.beq_self
  | decimal d => exact d.beq_self
  | null => rfl
  | boolean b => exact BEq.rfl (α := Bool)
  | int64 n => exact BEq.rfl (α := Int64)
  | string s => exact BEq.rfl (α := String)

end Literal

instance : PartialEquivBEq KeyValue :=
  partialEquivBEq_of_image (fun key => (key.name, key.value)) fun _ _ => rfl

instance : PartialEquivBEq Segment :=
  partialEquivBEq_of_image (fun s => ((s.identifier, s.kind), s.keys)) fun _ _ => rfl

instance : PartialEquivBEq Path :=
  partialEquivBEq_of_image Path.segments fun _ _ => rfl

instance : BEq Aggregation :=
  ⟨fun a b => a.expression == b.expression && a.method == b.method && a.name == b.name⟩

namespace Expr

theorem allEqual_eq_beq (as bs : List Expr) : allEqual as bs = (as == bs) :=
  eq_listBeq rfl (fun _ _ => rfl) (fun _ _ => rfl) (fun _ _ _ _ => rfl) as bs

theorem aggregationsEqual_eq_beq (as bs : List Aggregation) :
    aggregationsEqual as bs = (as == bs) :=
  eq_listBeq rfl (fun ⟨_, _, _⟩ _ => rfl) (fun _ _ => rfl) (fun ⟨_, _, _⟩ _ ⟨_, _, _⟩ _ => rfl)
    as bs

end Expr

namespace SelectItem

theorem allEqual_eq_beq (as bs : List SelectItem) : allEqual as bs = (as == bs) :=
  eq_listBeq rfl (fun _ _ => rfl) (fun _ _ => rfl) (fun _ _ _ _ => rfl) as bs

theorem mk_beq_mk (p q : Path) (s t : Option (List SelectItem)) :
    ((⟨p, s⟩ : SelectItem) == ⟨q, t⟩) = (p == q && s == t) := by
  cases s with
  | none =>
    cases t with
    | none => exact (Bool.and_true _).symm
    | some bs => exact (Bool.and_false _).symm
  | some as =>
    cases t with
    | none => exact (Bool.and_false _).symm
    | some bs =>
      rw [Option.some_beq_some, ← allEqual_eq_beq]
      rfl

theorem beq_symm {i j : SelectItem} (hij : i == j) : j == i := by
  induction i using SelectItem.induction generalizing j with
  | item p s ih =>
    obtain ⟨q, t⟩ := j
    rw [mk_beq_mk, Bool.and_eq_true] at hij ⊢
    refine ⟨BEq.symm hij.1, optionBeq_symm_of_mem ?_ hij.2⟩
    intro items hitems others
    exact listBeq_symm_of_mem fun i hi _ => ih items hitems i hi

theorem beq_trans {i j k : SelectItem} (hij : i == j) (hjk : j == k) : i == k := by
  induction i using SelectItem.induction generalizing j k with
  | item p s ih =>
    obtain ⟨q, t⟩ := j
    obtain ⟨r, u⟩ := k
    rw [mk_beq_mk, Bool.and_eq_true] at hij hjk ⊢
    refine ⟨BEq.trans hij.1 hjk.1, optionBeq_trans_of_mem ?_ hij.2 hjk.2⟩
    intro items hitems others further
    exact listBeq_trans_of_mem fun i hi _ _ => ih items hitems i hi

instance : PartialEquivBEq SelectItem where
  symm := beq_symm
  trans := beq_trans

end SelectItem

namespace Term

theorem allEqual_eq_beq (as bs : List Term) : allEqual as bs = (as == bs) :=
  eq_listBeq rfl (fun _ _ => rfl) (fun _ _ => rfl) (fun _ _ _ _ => rfl) as bs

theorem mk_beq_mk (p q : Path) (m n : Modifiers) (s t : Option Select) (e f : Option Clause) :
    ((⟨p, m, s, e⟩ : Term) == ⟨q, n, t, f⟩) = (p == q && m == n && s == t && e == f) := by
  cases e with
  | none =>
    cases f with
    | none => exact (Bool.and_true _).symm
    | some bs => exact (Bool.and_false _).symm
  | some as =>
    cases f with
    | none => exact (Bool.and_false _).symm
    | some bs =>
      rw [Option.some_beq_some, ← allEqual_eq_beq]
      rfl

end Term

end ExpandTree
