import ExpandTree.Proofs.Cutting

/-!
How the operands of a filter open. An operand opens with a bracket, quote, sign or digit, or with a
word that is reserved or a name, and its opening tells its kind. So only operations stand in
parentheses, and no expression starts with a closing one.
-/
namespace ExpandTree

open Text

def isNameStart (c : Char) : Bool := c.isAlpha || c == '_'

def isNameChar (c : Char) : Bool := c.isAlphanum || c == '_' || c == '.'

/-- Words that are no names in a filter. -/
def reservedNames : List String := ["null", "true", "false", "not"]

/-- A name of a property or function: ASCII letters, digits, underscores and points, the first of
them a letter or an underscore. -/
def isName (name : String) : Bool :=
  name.toList.head?.any isNameStart && name.toList.all isNameChar && !reservedNames.contains name

def Literal.isInexact : Literal → Bool
  | .double _ | .decimal _ => true
  | _ => false

namespace Expr

/-- A property or a function call, which may be the parent of a member. -/
def isAccess : Expr → Bool
  | .property _ | .member .. | .call .. => true
  | _ => false

/-- Expressions of filters over exact literals. A number is not negated by a sign, for its own sign
would look the same. -/
inductive Filterable : Expr → Prop where
  | literal {l : Literal} : l.isInexact = false → Filterable (.literal l)
  | property {name : String} : isName name = true → Filterable (.property name)
  | member {parent : Expr} {name : String} : parent.isAccess = true → Filterable parent →
      isName name = true → Filterable (.member parent name)
  | binary {op : BinaryOp} {left right : Expr} : Filterable left → Filterable right →
      Filterable (.binary op left right)
  | unary {op : UnaryOp} {operand : Expr} :
      (op = .negate → ∀ n, operand ≠ .literal (.int64 n)) → Filterable operand →
      Filterable (.unary op operand)
  | call {function : String} {arguments : List Expr} : isName function = true →
      (∀ e ∈ arguments, Filterable e) → Filterable (.call function arguments)

example : text .plain (.unary .negate (.literal (.int64 5))) =
    text .plain (.literal (.int64 (-5))) := by decide

end Expr

/-- The ways in which an operand may open. -/
inductive Opening where
  | null
  | boolean
  | number
  | quote
  | minus
  | not
  | bracket
  | name
  | none
  deriving DecidableEq

namespace Opening

def ofWord (word : List Char) : Opening :=
  if word = [] then .none
  else if word = ['n', 'u', 'l', 'l'] then .null
  else if word = boolText true ∨ word = boolText false then .boolean
  else if word = ['n', 'o', 't'] then .not
  else if word.head?.any Char.isDigit then .number
  else .name

/-- The opening of a text, told by its first character, by the one after a sign, or by its first
word. -/
def ofText (text : List Char) : Opening :=
  if text.head? = some '(' then .bracket
  else if text.head? = some '\x27' then .quote
  else if text.head? = some '-' then
    if text.tail.head?.any Char.isDigit then .number else .minus
  else ofWord (text.takeWhile isNameChar)

/-- The expressions that open in this way. -/
def Describes : Opening → Expr → Prop
  | .null, e => e = .literal .null
  | .boolean, e => ∃ b, e = .literal (.boolean b)
  | .number, e => ∃ n, e = .literal (.int64 n)
  | .quote, e => ∃ s, e = .literal (.string s)
  | .minus, e => ∃ operand, e = .unary .negate operand
  | .not, e => ∃ operand, e = .unary .not operand
  | .bracket, e => e.isBinary = true
  | .name, e => e.isAccess = true
  | .none, _ => True

end Opening

def Expr.opening : Expr → Opening
  | .literal .null => .null
  | .literal (.boolean _) => .boolean
  | .literal (.int64 _) => .number
  | .literal (.string _) => .quote
  | .unary .negate _ => .minus
  | .unary .not _ => .not
  | .binary .. => .bracket
  | .property _ | .member .. | .call .. => .name
  | _ => .none

theorem Expr.describes_opening (e : Expr) : e.opening.Describes e := by
  cases e with
  | literal l => cases l <;> simp [opening, Opening.Describes]
  | unary op operand => cases op <;> simp [opening, Opening.Describes]
  | _ => simp [opening, Opening.Describes, isAccess, isBinary]

theorem Expr.opening_of_isAccess {e : Expr} (h : e.isAccess = true) : e.opening = .name := by
  cases e <;> first | rfl | cases h

section Names

theorem isNameChar_of_isDigit {c : Char} (h : c.isDigit = true) : isNameChar c = true := by
  simp [isNameChar, Char.isAlphanum, h]

/-- Digits end at 57, before the letters and the underscore. -/
theorem isDigit_eq_false_of_isNameStart {c : Char} (h : isNameStart c = true) :
    c.isDigit = false := by
  rw [Bool.eq_false_iff]
  intro hdigit
  have hnine : c.val.toNat ≤ 57 :=
    UInt32.le_iff_toNat_le.mp (of_decide_eq_true ((Bool.and_eq_true _ _).mp hdigit).2)
  rcases (Bool.or_eq_true _ _).mp h with hletter | hunderscore
  · rcases (Bool.or_eq_true _ _).mp hletter with hupper | hlower
    · have hbound : 65 ≤ c.val.toNat := UInt32.le_iff_toNat_le.mp (of_decide_eq_true hupper).1
      omega
    · have hbound : 97 ≤ c.val.toNat :=
        UInt32.le_iff_toNat_le.mp (of_decide_eq_true ((Bool.and_eq_true _ _).mp hlower).1)
      omega
  · obtain rfl := eq_of_beq hunderscore
    cases hdigit

theorem isName_iff {name : String} :
    isName name = true ↔ (∃ c ∈ name.toList.head?, isNameStart c = true) ∧
      (∀ c ∈ name.toList, isNameChar c = true) ∧ name ∉ reservedNames := by
  simp [isName, and_assoc, Option.any_eq_true]

theorem toList_ne_nil_of_isName {name : String} (h : isName name = true) : name.toList ≠ [] := by
  obtain ⟨⟨c, hc, -⟩, -⟩ := isName_iff.mp h
  intro hnil
  rw [hnil] at hc
  cases hc

end Names

/-- What may follow a name or a literal: it neither prolongs a word nor doubles a quote. -/
def endsWord (c : Char) : Bool := !isNameChar c && c != '\x27'

/-- What may follow a whole expression of a filter: the end of a list or the next item. -/
def endsFilter (c : Char) : Bool := c == ')' || c == ','

theorem endsOperand_endsFilter {c : Char} (h : endsOperand endsFilter c = true) :
    c = ')' ∨ c = ',' ∨ c = ' ' := by
  simpa [endsOperand, endsFilter, or_assoc] using h

theorem GoesOn.endsWord {text : List Char} (h : GoesOn (endsOperand endsFilter) text) :
    GoesOn endsWord text := by
  refine h.mono fun c hc => ?_
  rcases endsOperand_endsFilter hc with rfl | rfl | rfl <;> rfl

theorem GoesOn.not_isNameChar {text : List Char} (h : GoesOn ExpandTree.endsWord text) :
    GoesOn (!isNameChar ·) text :=
  h.mono fun _ hc => ((Bool.and_eq_true _ _).mp hc).1

theorem GoesOn.not_isDigit {text : List Char} (h : GoesOn ExpandTree.endsWord text) :
    GoesOn (!Char.isDigit ·) text := by
  refine h.not_isNameChar.mono fun c hc => ?_
  cases hdigit : c.isDigit with
  | false => rfl
  | true =>
    rw [isNameChar_of_isDigit hdigit] at hc
    cases hc

theorem GoesOn.not_quote {text : List Char} (h : GoesOn ExpandTree.endsWord text) :
    GoesOn (· != '\x27') text :=
  h.mono fun _ hc => ((Bool.and_eq_true _ _).mp hc).2

namespace Opening

theorem ofText_eq_ofWord {text : List Char} (h : GoesOn isNameChar text) :
    ofText text = ofWord (text.takeWhile isNameChar) := by
  rw [ofText, if_neg (h.head?_ne rfl), if_neg (h.head?_ne rfl), if_neg (h.head?_ne rfl)]

theorem ofText_word {word rest : List Char} (hne : word ≠ [])
    (hword : ∀ c ∈ word, isNameChar c = true) (hrest : GoesOn (!isNameChar ·) rest) :
    ofText (word ++ rest) = ofWord word := by
  have hfirst : GoesOn isNameChar (word ++ rest) := by
    cases word with
    | nil => exact absurd rfl hne
    | cons c word => exact goesOn_cons.mpr (hword c List.mem_cons_self)
  rw [ofText_eq_ofWord hfirst, takeWhile_word hword hrest]

theorem ofWord_digit {c : Char} (hc : c.isDigit = true) (word : List Char) :
    ofWord (c :: word) = .number := by
  have hother : ∀ d : Char, d.isDigit = false → c ≠ d := by
    intro d hd h
    rw [h, hd] at hc
    cases hc
  simp [ofWord, boolText, hc, hother 'n' rfl, hother 't' rfl, hother 'f' rfl]

theorem ofText_digit {c : Char} (hc : c.isDigit = true) (rest : List Char) :
    ofText (c :: rest) = .number := by
  have hname := isNameChar_of_isDigit hc
  rw [ofText_eq_ofWord (goesOn_cons.mpr hname), List.takeWhile_cons_of_pos hname, ofWord_digit hc]

theorem ofWord_name {name : String} (h : isName name = true) : ofWord name.toList = .name := by
  obtain ⟨⟨c, hc, hstart⟩, -, hfree⟩ := isName_iff.mp h
  have hother : ∀ word ∈ reservedNames, name.toList ≠ word.toList := by
    intro word hword heq
    rw [String.toList_inj.mp heq] at hfree
    exact hfree hword
  have hdigit : ¬ name.toList.head?.any Char.isDigit = true := by
    rw [hc, Option.any_some, isDigit_eq_false_of_isNameStart hstart]
    exact Bool.false_ne_true
  have hnull : name.toList ≠ ['n', 'u', 'l', 'l'] := hother "null" (by decide)
  have htrue : name.toList ≠ boolText true := hother "true" (by decide)
  have hfalse : name.toList ≠ boolText false := hother "false" (by decide)
  have hnot : name.toList ≠ ['n', 'o', 't'] := hother "not" (by decide)
  rw [ofWord, if_neg (toList_ne_nil_of_isName h), if_neg hnull,
    if_neg (not_or.mpr ⟨htrue, hfalse⟩), if_neg hnot, if_neg hdigit]

/-- A name opens as a name, whatever may follow it. -/
theorem ofText_name {name : String} (h : isName name = true) {rest : List Char}
    (hrest : GoesOn (!isNameChar ·) rest) : ofText (name.toList ++ rest) = .name := by
  obtain ⟨-, hchars, -⟩ := isName_iff.mp h
  rw [ofText_word (toList_ne_nil_of_isName h) hchars hrest, ofWord_name h]

theorem ofText_int64 (n : Int64) {rest : List Char} : ofText (int64Text n ++ rest) = .number := by
  unfold int64Text intText
  cases htext : natText n.toInt.natAbs with
  | nil => exact absurd htext (natText_ne_nil _)
  | cons c digits =>
    have hc : c.isDigit = true := isDigit_of_mem_natText (n := n.toInt.natAbs) (by simp [htext])
    split
    · simp [ofText, hc]
    · exact ofText_digit hc _

theorem ofText_literal {l : Literal} (hl : l.isInexact = false) {rest : List Char}
    (hrest : GoesOn endsWord rest) : ofText (l.text ++ rest) = Expr.opening (.literal l) := by
  cases l with
  | null => exact ofText_word (by decide) (List.all_eq_true.mp rfl) hrest.not_isNameChar
  | boolean b =>
    cases b <;> exact ofText_word (by decide) (List.all_eq_true.mp rfl) hrest.not_isNameChar
  | int64 n => exact ofText_int64 n
  | string s => rfl
  | double d => cases hl
  | decimal d => cases hl

end Opening

namespace Expr

theorem isBinary_of_isAccess {e : Expr} (h : e.isAccess = true) : e.isBinary = false := by
  cases e <;> first | rfl | cases h

theorem operand_member {parent : Expr} (h : parent.isAccess = true) (name : String) :
    operand .plain (.member parent name) = parent.operand .plain ++ '/' :: name.toList := by
  rw [operand_eq_text (isBinary_of_isAccess h)]
  rfl

theorem operand_unary (op : UnaryOp) (e : Expr) :
    operand .plain (.unary op e) = unaryLead .plain op ++ e.operand .plain := rfl

theorem operand_call (function : String) (arguments : List Expr) :
    operand .plain (.call function arguments) =
      function.toList ++ parenthesized (join [','] (arguments.map (text .plain))) := by
  have htexts : texts .plain arguments = arguments.map (text .plain) :=
    eq_map_of_cons rfl (fun _ _ => rfl) arguments
  rw [← htexts]
  rfl

end Expr

namespace Opening

theorem ofText_not (rest : List Char) : ofText (unaryLead .plain .not ++ rest) = .not := by
  have hblank : GoesOn (!isNameChar ·) (' ' :: rest) := goesOn_cons.mpr (by decide)
  change ofText (['n', 'o', 't'] ++ ' ' :: rest) = .not
  rw [ofText_word (by decide) (List.all_eq_true.mp rfl) hblank]
  rfl

/-- A sign before anything but a digit is a negation. -/
theorem ofText_negate {rest : List Char} (h : ofText rest ≠ .number) :
    ofText (unaryLead .plain .negate ++ rest) = .minus := by
  cases rest with
  | nil => rfl
  | cons c rest =>
    have hc : c.isDigit = false := by
      rw [Bool.eq_false_iff]
      intro hc
      exact h (ofText_digit hc rest)
    simp [ofText, unaryLead, hc]

/-- An operand opens as its kind says. -/
theorem ofText_operand {e : Expr} (he : e.Filterable) {rest : List Char}
    (hrest : GoesOn endsWord rest) : ofText (e.operand .plain ++ rest) = e.opening := by
  induction he generalizing rest with
  | literal hl => exact ofText_literal hl hrest
  | property hname => exact ofText_name hname hrest.not_isNameChar
  | @member parent name hparent _ _ ih =>
    have hslash : GoesOn endsWord ('/' :: name.toList ++ rest) := goesOn_cons.mpr (by decide)
    rw [Expr.operand_member hparent, List.append_assoc, ih hslash,
      Expr.opening_of_isAccess hparent]
    rfl
  | binary _ _ _ _ => rfl
  | @unary op operand hint _ ih =>
    rw [Expr.operand_unary, List.append_assoc]
    cases op with
    | not => exact ofText_not _
    | negate =>
      -- Only a number opens as one, and numbers are not negated by a sign.
      apply ofText_negate
      rw [ih hrest]
      intro hnumber
      have hdescribes := operand.describes_opening
      rw [hnumber] at hdescribes
      obtain ⟨n, hn⟩ := hdescribes
      exact hint rfl n hn
  | call hname _ _ =>
    rw [Expr.operand_call, List.append_assoc]
    exact ofText_name hname (goesOn_cons.mpr (by decide))

theorem opening_ne_none {e : Expr} (he : e.Filterable) : e.opening ≠ .none := by
  intro h
  cases he with
  | @literal l hl => cases l <;> contradiction
  | @unary op => cases op <;> contradiction
  | _ => contradiction

/-- Whole expressions open as operands do; the opening of an operation is that of its left side. -/
theorem ofText_text_ne_none {e : Expr} (he : e.Filterable) {rest : List Char}
    (hrest : GoesOn endsFilter rest) : ofText (e.text .plain ++ rest) ≠ .none := by
  have hword := (Operations.goesOn_operand hrest).endsWord
  cases hbinary : e.isBinary with
  | false =>
    rw [← Expr.operand_eq_text hbinary, ofText_operand he hword]
    exact opening_ne_none he
  | true =>
    cases he with
    | @binary op left right hleft hright =>
      rw [Expr.text_binary_append, ofText_operand hleft (goesOn_cons.mpr (by decide))]
      exact opening_ne_none hleft
    | literal | property | member | unary | call => cases hbinary

end Opening

/-- No expression of a filter starts with a closing parenthesis. -/
theorem Expr.Filterable.text_append_ne {e : Expr} (he : e.Filterable) (r s : List Char)
    (hr : GoesOn endsFilter r) : e.text .plain ++ r ≠ ')' :: s := by
  intro h
  apply Opening.ofText_text_ne_none he hr
  rw [h]
  rfl

theorem filterOperations : Operations .plain Expr.Filterable endsFilter where
  left h := by cases h with | binary hleft hright => exact hleft
  right h := by cases h with | binary hleft hright => exact hright
  bracketed := by
    intro e he hbinary r s hr h
    have hopening := Opening.ofText_operand he hr.endsWord
    rw [Expr.operand_eq_text hbinary, h] at hopening
    have hdescribes := e.describes_opening
    rw [← hopening] at hdescribes
    rw [hdescribes] at hbinary
    cases hbinary
  blank := rfl
  close := rfl

end ExpandTree
