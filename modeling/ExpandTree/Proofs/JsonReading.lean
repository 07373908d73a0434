import ExpandTree.Proofs.JsonTokens
import Mathlib.Data.List.DropRight

/-!
JSON text that reads back. Whatever the layout, the text of a value is read as that value when its
numbers are integers of 64 bits, its objects stand in the order of their keys and its brackets nest
no deeper than the reader goes.
-/
namespace ExpandTree.Json

open Text

mutual

/-- How deep arrays and objects nest in a value. -/
def nesting : Json → Nat
  | .array items => nestingOfItems items + 1
  | .object fields => nestingOfFields fields + 1
  | .null | .boolean _ | .number _ | .string _ => 0
  termination_by structural v => v

def nestingOfItems : List Json → Nat
  | [] => 0
  | v :: rest => max v.nesting (nestingOfItems rest)
  termination_by structural items => items

def nestingOfFields : List (String × Json) → Nat
  | [] => 0
  | (_, v) :: rest => max v.nesting (nestingOfFields rest)
  termination_by structural fields => fields

end

/-- The integers that a number may be without becoming a double: those of 64 bits, with a sign or
without. -/
def IntegerFits (n : Int) : Prop := -9223372036854775808 ≤ n ∧ n ≤ 18446744073709551615

/-- Values without doubles, with integers that fit and with fields in the order of their keys, each
key once. -/
inductive Canonical : Json → Prop where
  | null : Canonical .null
  | boolean (b : Bool) : Canonical (.boolean b)
  | integer {n : Int} : IntegerFits n → Canonical (.number (.integer n))
  | string (s : String) : Canonical (.string s)
  | array {items : List Json} : (∀ v ∈ items, Canonical v) → Canonical (.array items)
  | object {fields : Fields} : fields.Pairwise (fun a b => a.1 < b.1) →
      (∀ field ∈ fields, Canonical field.2) → Canonical (.object fields)

section Fields

theorem insertField_of_forall_lt {key : String} {v : Json} {fields : Fields}
    (h : ∀ field ∈ fields, field.1 < key) : insertField key v fields = fields ++ [(key, v)] := by
  induction fields with
  | nil => rfl
  | cons field rest ih =>
    obtain ⟨k, w⟩ := field
    obtain ⟨hk, hrest⟩ := List.forall_mem_cons.mp h
    have hne : key ≠ k := by
      rintro rfl
      exact String.lt_irrefl _ hk
    rw [insertField, if_neg (String.lt_asymm hk), if_neg hne, ih hrest, List.cons_append]

theorem foldl_insertField {fields object : Fields}
    (h : (object ++ fields).Pairwise (fun a b => a.1 < b.1)) :
    fields.foldl (fun object field => insertField field.1 field.2 object) object =
      object ++ fields := by
  induction fields generalizing object with
  | nil => exact (List.append_nil object).symm
  | cons field rest ih =>
    obtain ⟨-, -, hbefore⟩ := List.pairwise_append.mp h
    have hlt : ∀ f ∈ object, f.1 < field.1 := fun f hf => hbefore f hf field List.mem_cons_self
    rw [List.foldl_cons, insertField_of_forall_lt hlt, ih (by simpa using h)]
    simp

/-- Fields that come in the order of their keys stay as they come. -/
theorem ofFields_eq {fields : Fields} (h : fields.Pairwise (fun a b => a.1 < b.1)) :
    ofFields fields = .object fields :=
  congrArg Json.object (@foldl_insertField fields [] h)

end Fields

section Gaps

theorem skipGap_skipGap (text : List Char) : skipGap (skipGap text) = skipGap text :=
  List.dropWhile_idempotent isGap text

theorem skipGap_lineBreak (layout : Layout) (depth : Nat) (text : List Char) :
    skipGap (lineBreak layout depth ++ text) = skipGap text := by
  cases layout with
  | compact => rfl
  | indented =>
    refine List.dropWhile_append_of_pos (List.forall_mem_cons.mpr ⟨rfl, fun c hc => ?_⟩)
    rw [List.eq_of_mem_replicate hc]
    rfl

theorem goesOn_lineBreak {c : Char} (hc : endsInteger c = true) (layout : Layout) (depth : Nat)
    (rest : List Char) : GoesOn endsInteger (lineBreak layout depth ++ c :: rest) := by
  cases layout with
  | compact => exact goesOn_cons.mpr hc
  | indented => exact goesOn_cons.mpr rfl

end Gaps

section Steps

variable {fuel room : Nat} {text rest rest' : List Char} {v : Json} {key : String}

/-- Gaps in front of a value do not count. -/
theorem value_congr {s t : List Char} (h : skipGap s = skipGap t) :
    value fuel room s = value fuel room t := by
  cases fuel with
  | zero => rw [value, value]
  | succ fuel => rw [value, value, h]

/-- A value that is read starts with another character than a closing bracket. -/
theorem exists_start_of_value (h : value fuel room text = .ok (v, rest)) :
    ∃ c more, skipGap text = c :: more ∧ c ≠ ']' := by
  cases fuel with
  | zero =>
    rw [value] at h
    cases h
  | succ fuel =>
    cases hskip : skipGap text with
    | nil =>
      rw [value, hskip] at h
      cases h
    | cons c more =>
      refine ⟨c, more, rfl, ?_⟩
      rintro rfl
      rw [value, hskip] at h
      cases h

theorem firstItem_of_value {items : List Json} (hv : value fuel room text = .ok (v, rest))
    (hitems : nextItem fuel room rest = .ok (items, rest')) :
    firstItem (fuel + 1) room text = .ok (v :: items, rest') := by
  obtain ⟨c, more, hstart, hc⟩ := exists_start_of_value hv
  rw [value_congr (skipGap_skipGap text).symm, hstart] at hv
  rw [firstItem, hstart]
  split
  · contradiction
  · rename_i heq
    exact absurd (List.cons.inj heq).1 hc
  · simp only [hv, hitems, ok_bind, pure_eq_ok]

theorem nextItem_of_value {items : List Json} (hv : value fuel room text = .ok (v, rest))
    (hitems : nextItem fuel room rest = .ok (items, rest')) :
    nextItem (fuel + 1) room (',' :: text) = .ok (v :: items, rest') := by
  obtain ⟨c, more, hstart, hc⟩ := exists_start_of_value hv
  rw [value_congr (skipGap_skipGap text).symm, hstart] at hv
  have hcomma : skipGap (',' :: text) = ',' :: text := rfl
  rw [nextItem, hcomma]
  simp only [hstart]
  split
  · contradiction
  · rename_i heq
    exact absurd (List.cons.inj heq).1 hc
  · simp only [hv, hitems, ok_bind, pure_eq_ok]

theorem value_array {items : List Json} (h : firstItem fuel room text = .ok (items, rest)) :
    value (fuel + 1) (room + 1) ('[' :: text) = .ok (.array items, rest) := by
  have hbracket : skipGap ('[' :: text) = '[' :: text := rfl
  rw [value, hbracket]
  simp only [h, ok_bind, pure_eq_ok]

theorem value_object {fields : Fields} (hsorted : fields.Pairwise (fun a b => a.1 < b.1))
    (h : firstField fuel room text = .ok (fields, rest)) :
    value (fuel + 1) (room + 1) ('\x7b' :: text) = .ok (.object fields, rest) := by
  have hbrace : skipGap ('\x7b' :: text) = '\x7b' :: text := rfl
  rw [value, hbrace]
  simp only [h, ofFields_eq hsorted, ok_bind, pure_eq_ok]

/-- The key of a field, its colon and the blank that may follow. -/
theorem fieldKey_escape (key : String) (layout : Layout)
    (hfuel : (key.toList.flatMap escape ++ '"' :: (afterKey layout ++ text)).length ≤ fuel) :
    ∃ more, fieldKey fuel (key.toList.flatMap escape ++ '"' :: (afterKey layout ++ text)) =
      .ok (key, more) ∧ skipGap more = skipGap text := by
  have hbody := stringBody_escape key hfuel
  cases layout with
  | compact =>
    refine ⟨text, ?_, rfl⟩
    rw [fieldKey, hbody]
    rfl
  | indented =>
    refine ⟨' ' :: text, ?_, rfl⟩
    rw [fieldKey, hbody]
    rfl

theorem firstField_of_value {fields : Fields} {body more : List Char}
    (hstart : skipGap text = '"' :: body) (hkey : fieldKey fuel body = .ok (key, more))
    (hv : value fuel room more = .ok (v, rest))
    (hfields : nextField fuel room rest = .ok (fields, rest')) :
    firstField (fuel + 1) room text = .ok ((key, v) :: fields, rest') := by
  rw [firstField, hstart]
  simp only [hkey, hv, hfields, ok_bind, pure_eq_ok]

theorem nextField_of_value {fields : Fields} {body more : List Char}
    (hstart : skipGap text = '"' :: body) (hkey : fieldKey fuel body = .ok (key, more))
    (hv : value fuel room more = .ok (v, rest))
    (hfields : nextField fuel room rest = .ok (fields, rest')) :
    nextField (fuel + 1) room (',' :: text) = .ok ((key, v) :: fields, rest') := by
  have hcomma : skipGap (',' :: text) = ',' :: text := rfl
  rw [nextField, hcomma]
  simp only [hstart, hkey, hv, hfields, ok_bind, pure_eq_ok]

end Steps

/-- The text of a value, whatever follows it, is read as the value. Twice its length is fuel
enough. -/
def ReadsBack (v : Json) : Prop :=
  ∀ (layout : Layout) (depth fuel room : Nat) (rest : List Char), v.nesting ≤ room →
    GoesOn endsInteger rest → 2 * (print layout depth v ++ rest).length < fuel →
      value fuel room (print layout depth v ++ rest) = .ok (v, rest)

section Scalars

theorem readsBack_null : ReadsBack .null := by
  intro layout depth fuel room rest _ _ hfuel
  obtain ⟨fuel, rfl⟩ := Nat.exists_eq_add_one.mpr (Nat.zero_lt_of_lt hfuel)
  rw [value]
  rfl

theorem readsBack_boolean (b : Bool) : ReadsBack (.boolean b) := by
  intro layout depth fuel room rest _ _ hfuel
  obtain ⟨fuel, rfl⟩ := Nat.exists_eq_add_one.mpr (Nat.zero_lt_of_lt hfuel)
  rw [value]
  cases b <;> rfl

theorem readsBack_string (s : String) : ReadsBack (.string s) := by
  intro layout depth fuel room rest _ _ hfuel
  obtain ⟨fuel, rfl⟩ := Nat.exists_eq_add_one.mpr (Nat.zero_lt_of_lt hfuel)
  have htext : print layout depth (.string s) ++ rest =
      '"' :: (s.toList.flatMap escape ++ '"' :: rest) := by
    simp [print, stringText]
  rw [htext, List.length_cons] at hfuel
  have hbody := @stringBody_escape s fuel rest (by omega)
  have hquote : ∀ text, skipGap ('"' :: text) = '"' :: text := fun _ => rfl
  rw [htext, value, hquote]
  simp only [hbody, ok_bind, pure_eq_ok]

theorem isGap_of_isDigit {c : Char} (hc : c.isDigit = true) : isGap c = false := by
  refine Bool.eq_false_iff.mpr fun hgap => ?_
  simp only [isGap, decide_eq_true_eq] at hgap
  rcases hgap with rfl | rfl | rfl | rfl <;> cases hc

theorem value_digit {fuel room : Nat} {c : Char} {rest : List Char} (hc : c.isDigit = true) :
    value (fuel + 1) room (c :: rest) =
      numeral false (c :: rest) >>= fun read => .ok (.number read.1, read.2) := by
  have hskip : skipGap (c :: rest) = c :: rest :=
    List.dropWhile_cons_of_neg (by rw [isGap_of_isDigit hc]; decide)
  rw [value, hskip]
  split
  · contradiction
  case h_9 heq =>
    cases heq
    rw [if_pos hc]
    rfl
  -- every other start of a value is no digit
  all_goals
    rename_i heq
    cases heq
    cases hc

theorem whole_natAbs {n : Int} (h : IntegerFits n) :
    whole (decide (n < 0)) n.natAbs = .integer n := by
  obtain ⟨hlow, -⟩ := h
  by_cases hnegative : n < 0
  · rw [decide_eq_true hnegative, whole, if_neg (by decide), if_pos (by omega)]
    congr 1
    omega
  · rw [decide_eq_false hnegative, whole, if_pos (by decide)]
    congr 1
    omega

theorem readsBack_integer {n : Int} (h : IntegerFits n) : ReadsBack (.number (.integer n)) := by
  intro layout depth fuel room rest _ hrest hfuel
  obtain ⟨fuel, rfl⟩ := Nat.exists_eq_add_one.mpr (Nat.zero_lt_of_lt hfuel)
  have hbound : n.natAbs ≤ significandLimit := by
    obtain ⟨hlow, hhigh⟩ := h
    rw [significandLimit]
    omega
  have hread := numeral_natText hbound (decide (n < 0)) hrest
  rw [whole_natAbs h] at hread
  rw [print, numberText, intText]
  by_cases hnegative : n < 0
  · rw [decide_eq_true hnegative] at hread
    have hminus : ∀ text, skipGap ('-' :: text) = '-' :: text := fun _ => rfl
    rw [if_pos hnegative, List.cons_append, value, hminus]
    simp only [hread, ok_bind, pure_eq_ok]
  · rw [decide_eq_false hnegative] at hread
    obtain ⟨c, digits, hdigits⟩ := List.exists_cons_of_ne_nil (natText_ne_nil n.natAbs)
    have hc : c.isDigit = true :=
      @isDigit_of_mem_natText n.natAbs c (by rw [hdigits]; exact List.mem_cons_self)
    rw [hdigits, List.cons_append] at hread
    rw [if_neg hnegative, hdigits, List.cons_append, value_digit hc, hread, ok_bind]

end Scalars

section Arrays

variable {items : List Json} {layout : Layout} {depth outer fuel room : Nat} {rest : List Char}

theorem goesOn_printItems {text : List Char} (h : GoesOn endsInteger text) :
    GoesOn endsInteger (printItems layout depth items ++ text) := by
  cases items with
  | nil => exact h
  | cons v items => exact goesOn_cons.mpr rfl

/-- The items behind the first are read up to the closing bracket. -/
theorem nextItem_printItems (h : ∀ v ∈ items, ReadsBack v) (hroom : nestingOfItems items ≤ room)
    (hfuel : 2 * (printItems layout depth items ++ (lineBreak layout outer ++ ']' :: rest)).length <
      fuel) :
    nextItem fuel room (printItems layout depth items ++ (lineBreak layout outer ++ ']' :: rest)) =
      .ok (items, rest) := by
  induction items generalizing fuel with
  | nil =>
    obtain ⟨fuel, rfl⟩ := Nat.exists_eq_add_one.mpr (Nat.zero_lt_of_lt hfuel)
    have hbracket : skipGap (lineBreak layout outer ++ ']' :: rest) = ']' :: rest :=
      skipGap_lineBreak layout outer _
    rw [printItems, List.nil_append, nextItem, hbracket]
    rfl
  | cons v items ih =>
    obtain ⟨fuel, rfl⟩ := Nat.exists_eq_add_one.mpr (Nat.zero_lt_of_lt hfuel)
    obtain ⟨hv, hitems⟩ := List.forall_mem_cons.mp h
    obtain ⟨hvRoom, hitemsRoom⟩ := Nat.max_le.mp hroom
    have hend := goesOn_lineBreak (c := ']') rfl layout outer rest
    simp only [printItems, List.cons_append, List.append_assoc, List.length_cons,
      List.length_append] at hfuel ⊢
    refine nextItem_of_value ((value_congr (skipGap_lineBreak layout depth _)).trans
      (hv layout depth fuel room _ hvRoom (goesOn_printItems hend) ?_)) (ih hitems hitemsRoom ?_)
    all_goals
      simp only [List.length_cons, List.length_append]
      omega

theorem readsBack_array (h : ∀ v ∈ items, ReadsBack v) : ReadsBack (.array items) := by
  intro layout depth fuel room rest hroom _ hfuel
  obtain ⟨fuel, rfl⟩ := Nat.exists_eq_add_one.mpr (Nat.zero_lt_of_lt hfuel)
  obtain ⟨room, rfl⟩ := Nat.exists_eq_add_one.mpr (Nat.zero_lt_of_lt hroom)
  cases items with
  | nil =>
    simp only [print, List.cons_append, List.nil_append, List.length_cons] at hfuel ⊢
    refine value_array ?_
    obtain ⟨fuel, rfl⟩ := Nat.exists_eq_add_one.mpr (show 0 < fuel by omega)
    rw [firstItem]
    rfl
  | cons v items =>
    obtain ⟨hv, hitems⟩ := List.forall_mem_cons.mp h
    obtain ⟨hvRoom, hitemsRoom⟩ := Nat.max_le.mp (Nat.le_of_succ_le_succ hroom)
    have hend := goesOn_lineBreak (c := ']') rfl layout depth rest
    simp only [print, List.cons_append, List.nil_append, List.append_assoc, List.length_cons,
      List.length_append] at hfuel ⊢
    refine value_array ?_
    obtain ⟨fuel, rfl⟩ := Nat.exists_eq_add_one.mpr (show 0 < fuel by omega)
    refine firstItem_of_value ((value_congr (skipGap_lineBreak layout (depth + 1) _)).trans
      (hv layout (depth + 1) fuel room _ hvRoom (goesOn_printItems hend) ?_))
      (nextItem_printItems hitems hitemsRoom ?_)
    all_goals
      simp only [List.length_cons, List.length_append]
      omega

end Arrays

section Objects

variable {fields : Fields} {layout : Layout} {depth outer fuel room : Nat} {rest : List Char}

theorem goesOn_printFields {text : List Char} (h : GoesOn endsInteger text) :
    GoesOn endsInteger (printFields layout depth fields ++ text) := by
  cases fields with
  | nil => exact h
  | cons field fields => exact goesOn_cons.mpr rfl

/-- The fields behind the first are read up to the closing brace. -/
theorem nextField_printFields (h : ∀ field ∈ fields, ReadsBack field.2)
    (hroom : nestingOfFields fields ≤ room)
    (hfuel : 2 * (printFields layout depth fields ++
      (lineBreak layout outer ++ '\x7d' :: rest)).length < fuel) :
    nextField fuel room (printFields layout depth fields ++
      (lineBreak layout outer ++ '\x7d' :: rest)) = .ok (fields, rest) := by
  induction fields generalizing fuel with
  | nil =>
    obtain ⟨fuel, rfl⟩ := Nat.exists_eq_add_one.mpr (Nat.zero_lt_of_lt hfuel)
    have hbrace : skipGap (lineBreak layout outer ++ '\x7d' :: rest) = '\x7d' :: rest :=
      skipGap_lineBreak layout outer _
    rw [printFields, List.nil_append, nextField, hbrace]
    rfl
  | cons field fields ih =>
    obtain ⟨key, v⟩ := field
    obtain ⟨fuel, rfl⟩ := Nat.exists_eq_add_one.mpr (Nat.zero_lt_of_lt hfuel)
    obtain ⟨hv, hfields⟩ := List.forall_mem_cons.mp h
    obtain ⟨hvRoom, hfieldsRoom⟩ := Nat.max_le.mp hroom
    have hend := goesOn_lineBreak (c := '\x7d') rfl layout outer rest
    simp only [printFields, stringText, List.cons_append, List.nil_append, List.append_assoc,
      List.length_cons, List.length_append] at hfuel ⊢
    obtain ⟨more, hkey, hmore⟩ := @fieldKey_escape fuel (print layout depth v ++
      (printFields layout depth fields ++ (lineBreak layout outer ++ '\x7d' :: rest))) key layout
      (by simp only [List.length_cons, List.length_append]; omega)
    refine nextField_of_value (skipGap_lineBreak layout depth _) hkey ((value_congr hmore).trans
      (hv layout depth fuel room _ hvRoom (goesOn_printFields hend) ?_)) (ih hfields hfieldsRoom ?_)
    all_goals
      simp only [List.length_cons, List.length_append]
      omega

theorem readsBack_object (hsorted : fields.Pairwise (fun a b => a.1 < b.1))
    (h : ∀ field ∈ fields, ReadsBack field.2) : ReadsBack (.object fields) := by
  intro layout depth fuel room rest hroom _ hfuel
  obtain ⟨fuel, rfl⟩ := Nat.exists_eq_add_one.mpr (Nat.zero_lt_of_lt hfuel)
  obtain ⟨room, rfl⟩ := Nat.exists_eq_add_one.mpr (Nat.zero_lt_of_lt hroom)
  cases fields with
  | nil =>
    simp only [print, List.cons_append, List.nil_append, List.length_cons] at hfuel ⊢
    refine value_object hsorted ?_
    obtain ⟨fuel, rfl⟩ := Nat.exists_eq_add_one.mpr (show 0 < fuel by omega)
    rw [firstField]
    rfl
  | cons field fields =>
    obtain ⟨key, v⟩ := field
    obtain ⟨hv, hfields⟩ := List.forall_mem_cons.mp h
    obtain ⟨hvRoom, hfieldsRoom⟩ := Nat.max_le.mp (Nat.le_of_succ_le_succ hroom)
    have hend := goesOn_lineBreak (c := '\x7d') rfl layout depth rest
    simp only [print, stringText, List.cons_append, List.nil_append, List.append_assoc,
      List.length_cons, List.length_append] at hfuel ⊢
    refine value_object hsorted ?_
    obtain ⟨fuel, rfl⟩ := Nat.exists_eq_add_one.mpr (show 0 < fuel by omega)
    obtain ⟨more, hkey, hmore⟩ := @fieldKey_escape fuel (print layout (depth + 1) v ++
      (printFields layout (depth + 1) fields ++ (lineBreak layout depth ++ '\x7d' :: rest))) key
      layout (by simp only [List.length_cons, List.length_append]; omega)
    refine firstField_of_value (skipGap_lineBreak layout (depth + 1) _) hkey
      ((value_congr hmore).trans
        (hv layout (depth + 1) fuel room _ hvRoom (goesOn_printFields hend) ?_))
      (nextField_printFields hfields hfieldsRoom ?_)
    all_goals
      simp only [List.length_cons, List.length_append]
      omega

end Objects

theorem readsBack {v : Json} (h : Canonical v) : ReadsBack v := by
  induction h with
  | null => exact readsBack_null
  | boolean b => exact readsBack_boolean b
  | integer hfits => exact readsBack_integer hfits
  | string s => exact readsBack_string s
  | array _ ih => exact readsBack_array ih
  | object hsorted _ ih => exact readsBack_object hsorted ih

/-- The text of a canonical value that nests no deeper than the reader goes is read as the value. -/
theorem ofText_text {v : Json} (h : Canonical v) (hnesting : v.nesting ≤ depthLimit)
    (layout : Layout) : ofText (v.text layout) = .ok v := by
  have hread := readsBack h layout 0 (2 * (v.text layout).length + 2) depthLimit [] hnesting
    (by rintro c ⟨⟩) (by rw [List.append_nil, text]; omega)
  rw [List.append_nil, text] at hread
  rw [ofText, document, text, hread]
  rfl

end ExpandTree.Json
