import ExpandTree.Json.Printer
import ExpandTree.Json.Reader
import ExpandTree.Proofs.Cutting
import ExpandTree.Proofs.Reads
import Mathlib.Tactic.IntervalCases

/-!
JSON strings and numbers that read back. Every character is escaped in one way that its reading
undoes. An integer ends where its digits end, so it is read back when what follows does not go on
as a number would.
-/
namespace ExpandTree.Json

open Text

section Strings

theorem unescape_control {n : Nat} (h : n < 0x20) (rest : List Char) :
    unescape ('u' :: '0' :: '0' :: hexDigit (n / 16) :: hexDigit (n % 16) :: rest) =
      .ok (Char.ofNat n, rest) := by
  interval_cases n <;> rfl

theorem characters_backslash {fuel : Nat} {text rest : List Char} {c : Char}
    (h : unescape text = .ok (c, rest)) :
    characters (fuel + 1) ('\\' :: text) =
      (characters fuel rest).map fun read => (c :: read.1, read.2) := by
  rw [characters, if_neg (by decide), if_pos rfl, h]
  show (characters fuel rest >>= fun read => .ok (c :: read.1, read.2)) = _
  cases characters fuel rest <;> rfl

/-- What is written for a character is read as that character. -/
theorem characters_escape (c : Char) (fuel : Nat) (text : List Char) :
    characters (fuel + 1) (escape c ++ text) =
      (characters fuel text).map fun read => (c :: read.1, read.2) := by
  by_cases hnamed : c ∈ ['"', '\\', '\x08', '\x0c', '\n', '\r', '\t']
  · simp only [List.mem_cons, List.not_mem_nil, or_false] at hnamed
    rcases hnamed with rfl | rfl | rfl | rfl | rfl | rfl | rfl <;> exact characters_backslash rfl
  simp only [List.mem_cons, List.not_mem_nil, or_false, not_or] at hnamed
  by_cases hcontrol : c.toNat < 0x20
  · have hread := unescape_control hcontrol text
    rw [Char.ofNat_toNat] at hread
    simp only [escape, hnamed, hcontrol, if_false, if_true]
    exact characters_backslash hread
  · simp only [escape, hnamed, hcontrol, if_false, List.singleton_append, characters]
    cases characters fuel text <;> rfl

theorem characters_flatMap_escape (s : List Char) {fuel : Nat} (h : s.length < fuel)
    (rest : List Char) :
    characters fuel (s.flatMap escape ++ '"' :: rest) = .ok (s, rest) := by
  induction s generalizing fuel with
  | nil =>
    obtain ⟨fuel, rfl⟩ := Nat.exists_eq_add_of_lt h
    rfl
  | cons c s ih =>
    cases fuel with
    | zero => exact absurd h (Nat.not_lt_zero _)
    | succ fuel =>
      rw [List.flatMap_cons, List.append_assoc, characters_escape,
        ih (Nat.lt_of_succ_lt_succ h)]
      rfl

theorem length_le_length_flatMap_escape (s : List Char) : s.length ≤ (s.flatMap escape).length := by
  induction s with
  | nil => exact Nat.le_refl 0
  | cons c s ih =>
    have hc : 0 < (escape c).length := by
      unfold escape
      split_ifs <;> simp
    rw [List.flatMap_cons, List.length_append, List.length_cons]
    omega

/-- The text of a string behind its first quote is read as the string. -/
theorem stringBody_escape (s : String) {fuel : Nat} {rest : List Char}
    (h : (s.toList.flatMap escape ++ '"' :: rest).length ≤ fuel) :
    stringBody fuel (s.toList.flatMap escape ++ '"' :: rest) = .ok (s, rest) := by
  have hlength := length_le_length_flatMap_escape s.toList
  rw [List.length_append, List.length_cons] at h
  rw [stringBody, characters_flatMap_escape s.toList (by omega)]
  exact congrArg (fun content => Except.ok (content, rest)) s.ofList_toList

end Strings

section Numbers

/-- What may follow an integer: no digit, no point and no exponent. -/
def endsInteger (c : Char) : Bool := !c.isDigit && c != '.' && !isExponentMark c

theorem gatherDigits_eq {digits : List Char} {limit n : Nat}
    (h : Nat.ofDigitChars 10 digits n ≤ limit) :
    gatherDigits limit n digits = (Nat.ofDigitChars 10 digits n, []) := by
  induction digits generalizing n with
  | nil => rfl
  | cons c digits ih =>
    rw [Nat.ofDigitChars_cons] at h ⊢
    rw [gatherDigits]
    exact (if_pos (Nat.le_trans (le_ofDigitChars ..) h)).trans (ih h)

/-- Only zero itself starts with a zero. -/
theorem head?_natText_ne_zero {n : Nat} (h : 0 < n) : (natText n).head? ≠ some '0' := by
  induction n using Nat.strongRecOn with
  | ind n ih =>
    by_cases hlt : n < 10
    · rw [natText, Nat.toDigits_of_lt_base hlt]
      interval_cases n <;> decide
    · have hstep : natText n = natText (n / 10) ++ [(n % 10).digitChar] :=
        Nat.toDigits_of_base_le (by decide) (by omega)
      rw [hstep, List.head?_append_of_ne_nil _ (natText_ne_nil _)]
      exact ih (n / 10) (by omega) (by omega)

theorem not_leading_zero {n : Nat} {first : Char} {more : List Char}
    (h : natText n = first :: more) : ¬(first = '0' ∧ 1 < (natText n).length) := by
  intro hzero
  obtain ⟨rfl, hlength⟩ := hzero
  have hn : ¬0 < n := fun hpos => head?_natText_ne_zero hpos (by rw [h]; rfl)
  rw [Nat.eq_zero_of_not_pos hn] at hlength
  exact absurd hlength (by decide)

theorem numeral_natText {n : Nat} (hn : n ≤ significandLimit) (negative : Bool) {rest : List Char}
    (hrest : GoesOn endsInteger rest) :
    numeral negative (natText n ++ rest) = .ok (whole negative n, rest) := by
  have hdigits : ∀ c ∈ natText n, c.isDigit = true := fun c => isDigit_of_mem_natText
  have hend : GoesOn (!Char.isDigit ·) rest := by
    refine hrest.mono fun c hc => ?_
    simp only [endsInteger, Bool.and_eq_true] at hc
    exact hc.1.1
  have hvalue : Nat.ofDigitChars 10 (natText n) 0 = n := Nat.ofDigitChars_ten_toDigits
  have hgather : gatherDigits significandLimit 0 (natText n) = (n, []) := by
    rw [gatherDigits_eq (by rwa [hvalue]), hvalue]
  obtain ⟨first, more, htext⟩ := List.exists_cons_of_ne_nil (natText_ne_nil n)
  have htake : (first :: (more ++ rest)).takeWhile Char.isDigit = natText n := by
    rw [← takeWhile_word hdigits hend, htext, List.cons_append]
  have hdrop : (first :: (more ++ rest)).dropWhile Char.isDigit = rest := by
    rw [← List.cons_append, ← htext, dropWhile_word hdigits hend]
  rw [htext, List.cons_append, numeral]
  simp only [htake, hdrop, hgather, not_leading_zero htext, natText_ne_nil, if_false, if_true]
  cases rest with
  | nil => rfl
  | cons c rest =>
    have hc := goesOn_cons.mp hrest
    simp only [endsInteger, Bool.and_eq_true, Bool.not_eq_true', bne_iff_ne] at hc
    split
    · rename_i heq
      exact absurd (List.cons.inj heq).1 hc.1.2
    · contradiction
    · rename_i heq
      cases heq
      rw [hc.2]
      rfl

end Numbers

end ExpandTree.Json
