import ExpandTree.Decimal.Reading
import ExpandTree.Double.Layout
import ExpandTree.Double.Reading

/-!
Numbers that are written as text read back. A decimal keeps coefficient and scale and, unless it is
zero, its sign; a double without digits keeps its kind.
-/
namespace ExpandTree

namespace Text

theorem isDigit_of_mem_natText {n : Nat} {c : Char} (h : c ∈ natText n) : c.isDigit = true :=
  Nat.isDigit_of_mem_toDigits (by decide) (by decide) h

theorem natText_ne_nil (n : Nat) : natText n ≠ [] := Nat.toDigits_ne_nil

/-- Further digits never make a number smaller. -/
theorem le_ofDigitChars (digits : List Char) (n : Nat) : n ≤ Nat.ofDigitChars 10 digits n := by
  induction digits generalizing n with
  | nil => exact Nat.le_refl n
  | cons c rest ih =>
    rw [Nat.ofDigitChars_cons]
    exact Nat.le_trans (by omega) (ih _)

end Text

namespace Decimal

open Text

/-- Digits before the point add to the coefficient, which is in bounds when their whole is. -/
theorem gather_whole {digits : List Char} (rest : List Char) {n : Nat} (seen : Bool)
    (hdigits : ∀ c ∈ digits, c.isDigit = true) (hlt : Nat.ofDigitChars 10 digits n < bound) :
    gather n 0 false seen (digits ++ rest) =
      gather (Nat.ofDigitChars 10 digits n) 0 false (seen || !digits.isEmpty) rest := by
  induction digits generalizing n seen with
  | nil => simp
  | cons c digits ih =>
    obtain ⟨hc, hrest⟩ := List.forall_mem_cons.mp hdigits
    rw [Nat.ofDigitChars_cons] at hlt ⊢
    have hnext : 10 * n + digitValue c < bound := Nat.lt_of_le_of_lt (le_ofDigitChars ..) hlt
    rw [List.cons_append, gather, if_neg (by simp), if_pos hc, if_pos hnext]
    simp only [Bool.false_eq_true, if_false]
    rw [digitValue, ih true hrest hlt]
    simp

/-- Digits after the point add to coefficient and scale, as long as there is room. -/
theorem gather_fraction {digits : List Char} {n scale : Nat}
    (hdigits : ∀ c ∈ digits, c.isDigit = true) (hlt : Nat.ofDigitChars 10 digits n < bound)
    (hscale : scale + digits.length ≤ 28) :
    gather n scale true true digits =
      .ok (Nat.ofDigitChars 10 digits n, scale + digits.length) := by
  induction digits generalizing n scale with
  | nil => rfl
  | cons c digits ih =>
    obtain ⟨hc, hrest⟩ := List.forall_mem_cons.mp hdigits
    rw [Nat.ofDigitChars_cons] at hlt ⊢
    rw [List.length_cons] at hscale ⊢
    have hnext : 10 * n + digitValue c < bound := Nat.lt_of_le_of_lt (le_ofDigitChars ..) hlt
    rw [gather, if_neg (by omega), if_pos hc, if_pos hnext, if_pos rfl, digitValue,
      ih hrest hlt (by omega)]
    congr 2
    omega

/-- A point may stand anywhere behind the first of the digits. -/
theorem gather_placed {digits : List Char} {whole : Nat} (hpos : 0 < whole)
    (hle : whole ≤ digits.length) (hscale : digits.length - whole ≤ 28)
    (hdigits : ∀ c ∈ digits, c.isDigit = true) (hlt : Nat.ofDigitChars 10 digits 0 < bound) :
    gather 0 0 false false (digits.take whole ++ '.' :: digits.drop whole) =
      .ok (Nat.ofDigitChars 10 digits 0, digits.length - whole) := by
  have happend : Nat.ofDigitChars 10 (digits.drop whole)
      (Nat.ofDigitChars 10 (digits.take whole) 0) = Nat.ofDigitChars 10 digits 0 := by
    rw [← Nat.ofDigitChars_append, List.take_append_drop]
  have hseen : (digits.take whole).isEmpty = false := by
    simp only [List.isEmpty_eq_false_iff, ne_eq, List.take_eq_nil_iff]
    rintro (hzero | hnil)
    · omega
    · rw [hnil, List.length_nil] at hle
      omega
  have hfraction := @gather_fraction (digits.drop whole)
    (Nat.ofDigitChars 10 (digits.take whole) 0) 0 (fun c hc => hdigits c (List.mem_of_mem_drop hc))
    (by rwa [happend]) (by rw [List.length_drop]; omega)
  rw [gather_whole _ false (fun c hc => hdigits c (List.mem_of_mem_take hc))
    (Nat.lt_of_le_of_lt (happend ▸ le_ofDigitChars _ _) hlt), hseen, gather,
    if_neg (by simp), if_neg (by decide), if_pos (by simp)]
  rw [happend, List.length_drop, Nat.zero_add] at hfraction
  exact hfraction

theorem gather_unsignedText {coefficient scale : Nat} (hlt : coefficient < bound)
    (hscale : scale ≤ 28) :
    gather 0 0 false false (unsignedText coefficient scale) = .ok (coefficient, scale) := by
  have hdigits : ∀ c ∈ natText coefficient, c.isDigit = true := fun c => isDigit_of_mem_natText
  have hvalue : Nat.ofDigitChars 10 (natText coefficient) 0 = coefficient :=
    Nat.ofDigitChars_ten_toDigits
  unfold unsignedText
  by_cases hzero : scale = 0
  · have h := gather_whole [] false hdigits (by rwa [hvalue])
    rw [List.append_nil, hvalue] at h
    rw [if_pos hzero, h, hzero]
    simp [natText_ne_nil, gather]
  · rw [if_neg hzero]
    have hpositive : 0 < (natText coefficient).length := Nat.length_toDigits_pos
    let padded := List.replicate (scale + 1 - (natText coefficient).length) '0' ++
      natText coefficient
    have hlength : padded.length = max (scale + 1) (natText coefficient).length := by
      simp only [padded, List.length_append, List.length_replicate]
      omega
    have hpadded : Nat.ofDigitChars 10 padded 0 = coefficient := by
      simp only [padded, Nat.ofDigitChars_append, Nat.ofDigitChars_replicate_zero, Nat.mul_zero,
        hvalue]
    have h := @gather_placed padded (padded.length - scale) (by omega) (by omega) (by omega)
      (by
        intro c hc
        rcases List.mem_append.mp hc with hc | hc
        · rw [List.eq_of_mem_replicate hc]
          rfl
        · exact hdigits c hc)
      (by rwa [hpadded])
    rw [hpadded, Nat.sub_sub_self (by omega)] at h
    exact h

/-- A decimal as it is read back: a zero has lost its sign. -/
def reread (d : Decimal) : Decimal := { d with negative := d.negative && d.coefficient != 0 }

theorem reread_beq (d : Decimal) : d.reread == d := by
  by_cases hzero : d.coefficient = 0
  · simp [beq_def, numerator, reread, hzero]
  · have hnonzero : (d.coefficient != 0) = true := bne_iff_ne.mpr hzero
    have hsame : d.reread = d := by simp only [reread, hnonzero, Bool.and_true]
    rw [hsame, beq_self]

theorem ofSigned_eq (d : Decimal) :
    ofSigned d.negative d.coefficient d.scale = .ok d.reread := by
  rw [ofSigned, ofParts?, dif_pos ⟨d.coefficient_lt, d.scale_le⟩]
  rfl

/-- Text that can be gathered has no sign. -/
theorem ofPlain_of_gather {text : List Char} {coefficient scale : Nat}
    (h : gather 0 0 false false text = .ok (coefficient, scale)) :
    ofPlain text = ofSigned false coefficient scale := by
  cases text with
  | nil => cases h
  | cons c rest =>
    have hminus : c ≠ '-' := by
      rintro rfl
      cases h
    have hplus : c ≠ '+' := by
      rintro rfl
      cases h
    unfold ofPlain
    split
    · contradiction
    · rename_i heq
      exact absurd (List.cons.inj heq).1 hminus
    · simp only [List.head?_cons, Option.some.injEq, hplus, if_false, h]
      rfl

/-- What a decimal is written as reads back. -/
theorem ofText_text (d : Decimal) : ofText d.text = .ok d.reread := by
  have hgather := gather_unsignedText d.coefficient_lt d.scale_le
  have hplain : ofPlain d.text = .ok d.reread := by
    rw [← ofSigned_eq]
    cases hnegative : d.negative with
    | false =>
      simp only [text, hnegative, Bool.false_eq_true, if_false]
      exact ofPlain_of_gather hgather
    | true =>
      simp only [text, hnegative, if_true, ofPlain, hgather]
      rfl
  rw [ofText, hplain]

end Decimal

namespace Double

/-- A double as it is read back: of all NaNs one is left. -/
def reread (d : Double) : Double := if d.isNaN then nan else d

theorem ofPattern_pattern (d : Double) : ofPattern d.isNegative d.pattern = d := by
  obtain ⟨bits⟩ := d
  have hlt : bits.toNat < 2 * signWeight := bits.toNat_lt
  simp only [ofPattern, isNegative, pattern, mk.injEq]
  by_cases h : signWeight ≤ bits.toNat
  · have hsum : signWeight + bits.toNat % signWeight = bits.toNat := by
      rw [Nat.mod_eq_sub_mod h, Nat.mod_eq_of_lt (by omega)]
      omega
    simp only [h, decide_true, if_true, hsum, UInt64.ofNat_toNat]
  · simp only [h, decide_false, Bool.false_eq_true, if_false, Nat.mod_eq_of_lt (Nat.lt_of_not_le h),
      UInt64.ofNat_toNat]

theorem ofText_specialText {d : Double} (h : d.isFinite = false) :
    ofText d.specialText = .ok d.reread := by
  by_cases hnan : d.isNaN = true
  · rw [specialText, if_pos hnan, reread, if_pos hnan]
    rfl
  · have hpattern : d.pattern = infinityPattern := by
      simp only [isFinite, isNaN, decide_eq_false_iff_not, decide_eq_true_iff] at h hnan
      omega
    have hd := hpattern ▸ d.ofPattern_pattern
    rw [specialText, if_neg hnan, reread, if_neg hnan]
    cases hnegative : d.isNegative with
    | false =>
      rw [hnegative] at hd
      rw [← hd]
      rfl
    | true =>
      rw [hnegative] at hd
      rw [← hd]
      rfl

end Double

end ExpandTree
