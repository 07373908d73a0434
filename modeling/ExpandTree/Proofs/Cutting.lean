import ExpandTree.Proofs.Induction
import ExpandTree.Proofs.Numerals
import ExpandTree.QueryText

/-!
Cutting written text apart. A piece can be cut off the text it starts when no other piece starts
that text in a different way; what may follow the piece is told by the next character. Words end
where their characters end, a quoted string at the first quote that is not doubled, and a list at
its closing parenthesis. Operations are cut at the blanks around their operator, since an operand
that is an operation itself stands in parentheses.
-/
namespace ExpandTree

open Text

/-- The text is over, or goes on with such a character. -/
def GoesOn (next : Char → Bool) (text : List Char) : Prop := ∀ c ∈ text.head?, next c = true

theorem goesOn_cons {next : Char → Bool} {c : Char} {text : List Char} :
    GoesOn next (c :: text) ↔ next c = true := by
  simp [GoesOn]

theorem GoesOn.mono {next other : Char → Bool} {text : List Char} (h : GoesOn next text)
    (hle : ∀ c, next c = true → other c = true) : GoesOn other text :=
  fun c hc => hle c (h c hc)

theorem GoesOn.head?_ne {next : Char → Bool} {text : List Char} (h : GoesOn next text) {c : Char}
    (hc : next c = false) : text.head? ≠ some c := by
  intro heq
  rw [h c heq] at hc
  cases hc

theorem GoesOn.ne_cons {next : Char → Bool} {text : List Char} (h : GoesOn next text) {c : Char}
    (hc : next c = false) {rest : List Char} : text ≠ c :: rest := by
  intro heq
  apply h.head?_ne hc
  rw [heq, List.head?_cons]

/-- A text that starts with what is written for `a`, and goes on as it may, starts with what is
written for no other member. -/
def CutsOff {α : Type} (write : α → List Char) (Member : α → Prop) (next : Char → Bool) (a : α) :
    Prop :=
  ∀ b, Member b → ∀ r s, GoesOn next r → GoesOn next s → write a ++ r = write b ++ s → a = b ∧ r = s

section Words

variable {p : Char → Bool}

theorem takeWhile_word {word rest : List Char} (hword : ∀ c ∈ word, p c = true)
    (hrest : GoesOn (!p ·) rest) : (word ++ rest).takeWhile p = word := by
  have hstop : rest.takeWhile p = [] := by
    cases rest with
    | nil => rfl
    | cons c rest =>
      have hc : p c = false := by simpa using goesOn_cons.mp hrest
      rw [List.takeWhile_cons, hc]
      rfl
  rw [List.takeWhile_append_of_pos hword, hstop, List.append_nil]

theorem dropWhile_word {word rest : List Char} (hword : ∀ c ∈ word, p c = true)
    (hrest : GoesOn (!p ·) rest) : (word ++ rest).dropWhile p = rest := by
  have h := List.takeWhile_append_dropWhile (p := p) (l := word ++ rest)
  rw [takeWhile_word hword hrest] at h
  exact List.append_cancel_left h

/-- A word ends where its characters end. -/
theorem word_append_inj {v w r s : List Char} (hv : ∀ c ∈ v, p c = true)
    (hw : ∀ c ∈ w, p c = true) (hr : GoesOn (!p ·) r) (hs : GoesOn (!p ·) s)
    (h : v ++ r = w ++ s) : v = w ∧ r = s := by
  have htake := congrArg (List.takeWhile p) h
  rw [takeWhile_word hv hr, takeWhile_word hw hs] at htake
  subst htake
  exact ⟨rfl, List.append_cancel_left h⟩

end Words

section Literals

theorem natText_injective {m n : Nat} (h : natText m = natText n) : m = n := by
  have hm : Nat.ofDigitChars 10 (natText m) 0 = m := Nat.ofDigitChars_ten_toDigits
  have hn : Nat.ofDigitChars 10 (natText n) 0 = n := Nat.ofDigitChars_ten_toDigits
  rw [← hm, h, hn]

theorem natText_append_inj {m n : Nat} {r s : List Char} (hr : GoesOn (!Char.isDigit ·) r)
    (hs : GoesOn (!Char.isDigit ·) s) (h : natText m ++ r = natText n ++ s) : m = n ∧ r = s := by
  obtain ⟨htext, hrest⟩ := word_append_inj (fun _ => isDigit_of_mem_natText)
    (fun _ => isDigit_of_mem_natText) hr hs h
  exact ⟨natText_injective htext, hrest⟩

/-- Digits do not start with a sign. -/
theorem natText_append_ne {n : Nat} {r s : List Char} : natText n ++ r ≠ '-' :: s := by
  cases htext : natText n with
  | nil => exact absurd htext (natText_ne_nil n)
  | cons c digits =>
    intro h
    have hc : c.isDigit = true := isDigit_of_mem_natText (n := n) (by simp [htext])
    rw [(List.cons.inj h).1] at hc
    exact absurd hc (by decide)

theorem int64Text_append_inj {m n : Int64} {r s : List Char} (hr : GoesOn (!Char.isDigit ·) r)
    (hs : GoesOn (!Char.isDigit ·) s) (h : int64Text m ++ r = int64Text n ++ s) :
    m = n ∧ r = s := by
  unfold int64Text intText at h
  split at h <;> split at h
  · obtain ⟨habs, hrest⟩ := natText_append_inj hr hs (List.cons.inj h).2
    exact ⟨Int64.toInt_inj.mp (by omega), hrest⟩
  · exact absurd h.symm natText_append_ne
  · exact absurd h natText_append_ne
  · obtain ⟨habs, hrest⟩ := natText_append_inj hr hs h
    exact ⟨Int64.toInt_inj.mp (by omega), hrest⟩

/-- A string with each quote in it doubled, as it stands between quotes. -/
def doubledQuotes (s : List Char) : List Char :=
  s.flatMap fun c => if c = '\x27' then ['\x27', '\x27'] else [c]

theorem quotedString_append (s r : List Char) :
    quotedString s ++ r = '\x27' :: (doubledQuotes s ++ '\x27' :: r) := by
  simp [quotedString, doubledQuotes]

theorem doubledQuotes_quote (s : List Char) :
    doubledQuotes ('\x27' :: s) = '\x27' :: '\x27' :: doubledQuotes s := rfl

theorem doubledQuotes_cons {c : Char} (hc : c ≠ '\x27') (s : List Char) :
    doubledQuotes (c :: s) = c :: doubledQuotes s := by
  simp [doubledQuotes, hc]

/-- The first quote that no other follows is not one of the string. -/
theorem doubledQuotes_append_ne {c : Char} {s r r' : List Char}
    (hr : GoesOn (· != '\x27') r) : doubledQuotes (c :: s) ++ r' ≠ '\x27' :: r := by
  intro h
  by_cases hc : c = '\x27'
  · subst hc
    rw [doubledQuotes_quote] at h
    obtain rfl := (List.cons.inj h).2
    simp [GoesOn] at hr
  · rw [doubledQuotes_cons hc] at h
    exact hc (List.cons.inj h).1

theorem doubledQuotes_append_inj {s t r r' : List Char} (hr : GoesOn (· != '\x27') r)
    (hr' : GoesOn (· != '\x27') r')
    (h : doubledQuotes s ++ '\x27' :: r = doubledQuotes t ++ '\x27' :: r') : s = t ∧ r = r' := by
  induction s generalizing t with
  | nil =>
    cases t with
    | nil => exact ⟨rfl, (List.cons.inj h).2⟩
    | cons d t => exact absurd h.symm (doubledQuotes_append_ne hr)
  | cons c s ih =>
    cases t with
    | nil => exact absurd h (doubledQuotes_append_ne hr')
    | cons d t =>
      by_cases hc : c = '\x27' <;> by_cases hd : d = '\x27'
      · subst hc hd
        simp only [doubledQuotes_quote, List.cons_append, List.cons.injEq, true_and] at h
        obtain ⟨rfl, hrest⟩ := ih h
        exact ⟨rfl, hrest⟩
      · subst hc
        rw [doubledQuotes_quote, doubledQuotes_cons hd] at h
        exact absurd (List.cons.inj h).1.symm hd
      · subst hd
        rw [doubledQuotes_quote, doubledQuotes_cons hc] at h
        exact absurd (List.cons.inj h).1 hc
      · rw [doubledQuotes_cons hc, doubledQuotes_cons hd] at h
        obtain ⟨rfl, htail⟩ := List.cons.inj h
        obtain ⟨rfl, hrest⟩ := ih htail
        exact ⟨rfl, hrest⟩

/-- A string ends at the first quote that no other quote follows. -/
theorem quotedString_append_inj {s t r r' : List Char} (hr : GoesOn (· != '\x27') r)
    (hr' : GoesOn (· != '\x27') r') (h : quotedString s ++ r = quotedString t ++ r') :
    s = t ∧ r = r' := by
  rw [quotedString_append, quotedString_append] at h
  exact doubledQuotes_append_inj hr hr' (List.cons.inj h).2

end Literals

section Lists

variable {α : Type} {write : α → List Char} {Member : α → Prop} {next : Char → Bool}

/-- What follows an item of a list: nothing, or a comma and the items after it. -/
def afterItem : List (List Char) → List Char
  | [] => []
  | piece :: pieces => ',' :: join [','] (piece :: pieces)

theorem join_cons (piece : List Char) (pieces : List (List Char)) :
    join [','] (piece :: pieces) = piece ++ afterItem pieces := by
  cases pieces with
  | nil => exact (List.append_nil piece).symm
  | cons second rest => simp [join, afterItem]

theorem goesOn_afterItem (hcomma : next ',' = true) (hclose : next ')' = true)
    (pieces : List (List Char)) (r : List Char) : GoesOn next (afterItem pieces ++ ')' :: r) := by
  cases pieces with
  | nil => exact goesOn_cons.mpr hclose
  | cons piece rest => exact goesOn_cons.mpr hcomma

/-- A list up to its closing parenthesis can be cut off when each of its items can, and no item
starts with that parenthesis. -/
theorem join_append_inj {as bs : List α} (hcut : ∀ a ∈ as, CutsOff write Member next a)
    (has : ∀ a ∈ as, Member a) (hbs : ∀ b ∈ bs, Member b)
    (hstart : ∀ a, Member a → ∀ r s, GoesOn next r → write a ++ r ≠ ')' :: s)
    (hcomma : next ',' = true) (hclose : next ')' = true) {r s : List Char}
    (h : join [','] (as.map write) ++ ')' :: r = join [','] (bs.map write) ++ ')' :: s) :
    as = bs ∧ r = s := by
  have hgoes := goesOn_afterItem hcomma hclose
  induction as generalizing bs with
  | nil =>
    cases bs with
    | nil => exact ⟨rfl, (List.cons.inj h).2⟩
    | cons b bs =>
      rw [List.map_cons, join_cons, List.append_assoc] at h
      exact absurd h.symm (hstart b (hbs b List.mem_cons_self) _ r (hgoes _ s))
  | cons a as ih =>
    obtain ⟨hcuta, hcutas⟩ := List.forall_mem_cons.mp hcut
    obtain ⟨ha, has'⟩ := List.forall_mem_cons.mp has
    rw [List.map_cons, join_cons, List.append_assoc] at h
    cases bs with
    | nil => exact absurd h (hstart a ha _ s (hgoes _ r))
    | cons b bs =>
      obtain ⟨hb, hbs'⟩ := List.forall_mem_cons.mp hbs
      rw [List.map_cons, join_cons, List.append_assoc] at h
      obtain ⟨rfl, hafter⟩ := hcuta b hb _ _ (hgoes _ r) (hgoes _ s) h
      -- Both lists end here, or both go on behind a comma.
      cases as with
      | nil =>
        cases bs with
        | nil => exact ⟨rfl, (List.cons.inj hafter).2⟩
        | cons b bs => exact absurd (List.cons.inj hafter).1 (by decide)
      | cons a as =>
        cases bs with
        | nil => exact absurd (List.cons.inj hafter).1 (by decide)
        | cons b bs =>
          obtain ⟨heq, hrest⟩ := ih hcutas has' hbs' (List.cons.inj hafter).2
          exact ⟨congrArg _ heq, hrest⟩

end Lists

namespace BinaryOp

theorem keyword_injective {a b : BinaryOp} (h : a.keyword = b.keyword) : a = b := by
  have hread := congrArg ofKeyword? h
  rw [ofKeyword?_keyword, ofKeyword?_keyword] at hread
  exact Option.some.inj hread

end BinaryOp

/-- Either grammar writes the keyword, in its own case. -/
theorem map_toLower_binaryWord (grammar : Grammar) (op : BinaryOp) :
    (binaryWord grammar op).map Char.toLower = op.keyword.toList := by
  cases grammar <;> cases op <;> rfl

theorem binaryWord_has_no_blank (grammar : Grammar) (op : BinaryOp) :
    ∀ c ∈ binaryWord grammar op, (c != ' ') = true := by
  apply List.all_eq_true.mp
  cases grammar <;> cases op <;> rfl

theorem binaryWord_append_inj {grammar : Grammar} {a b : BinaryOp} {r s : List Char}
    (h : binaryWord grammar a ++ ' ' :: r = binaryWord grammar b ++ ' ' :: s) : a = b ∧ r = s := by
  have hblank : ∀ rest, GoesOn (!· != ' ') (' ' :: rest) := fun _ => goesOn_cons.mpr rfl
  obtain ⟨hword, hrest⟩ := word_append_inj (binaryWord_has_no_blank grammar a)
    (binaryWord_has_no_blank grammar b) (hblank r) (hblank s) h
  have hkeyword : a.keyword.toList = b.keyword.toList := by
    rw [← map_toLower_binaryWord grammar, hword, map_toLower_binaryWord]
  exact ⟨BinaryOp.keyword_injective (String.toList_inj.mp hkeyword), (List.cons.inj hrest).2⟩

/-- The text of an operand, in parentheses if it is a binary operation. -/
def Expr.operand (grammar : Grammar) (e : Expr) : List Char := operandText e (e.text grammar)

theorem Expr.operand_binary (grammar : Grammar) (op : BinaryOp) (left right : Expr) :
    operand grammar (.binary op left right) =
      parenthesized (text grammar (.binary op left right)) := rfl

theorem Expr.operand_eq_text {grammar : Grammar} {e : Expr} (h : e.isBinary = false) :
    e.operand grammar = e.text grammar := by
  rw [operand, operandText, h]
  rfl

theorem Expr.text_binary_append (grammar : Grammar) (op : BinaryOp) (left right : Expr)
    (r : List Char) :
    text grammar (.binary op left right) ++ r =
      left.operand grammar ++
        ' ' :: (binaryWord grammar op ++ ' ' :: (right.operand grammar ++ r)) := by
  change (left.operand grammar ++ ' ' :: binaryWord grammar op ++
    ' ' :: right.operand grammar) ++ r = _
  simp only [List.append_assoc, List.cons_append]

section Operations

/-- An operand may also be followed by the blank before an operator. -/
def endsOperand (ends : Char → Bool) (c : Char) : Bool := ends c || c == ' '

/-- Expressions of a grammar with their operands. No operand opens with a parenthesis unless it is a
binary operation; `ends` are the characters that may follow a whole expression. -/
structure Operations (grammar : Grammar) (Member : Expr → Prop) (ends : Char → Bool) : Prop where
  left : ∀ {op left right}, Member (.binary op left right) → Member left
  right : ∀ {op left right}, Member (.binary op left right) → Member right
  bracketed : ∀ {e}, Member e → e.isBinary = false → ∀ r s, GoesOn (endsOperand ends) r →
    e.text grammar ++ r ≠ '(' :: s
  blank : ends ' ' = false
  close : ends ')' = true

/-- An expression that can be cut off, as a whole and as an operand. -/
structure Expr.Separable (grammar : Grammar) (Member : Expr → Prop) (ends : Char → Bool)
    (e : Expr) : Prop where
  whole : CutsOff (text grammar) Member ends e
  operand : CutsOff (operand grammar) Member (endsOperand ends) e

variable {grammar : Grammar} {Member : Expr → Prop} {ends : Char → Bool}

namespace Operations

theorem goesOn_operand {text : List Char} (h : GoesOn ends text) : GoesOn (endsOperand ends) text :=
  h.mono fun c hc => by rw [endsOperand, hc, Bool.true_or]

theorem goesOn_blank (text : List Char) : GoesOn (endsOperand ends) (' ' :: text) :=
  goesOn_cons.mpr (Bool.or_true _)

variable (hops : Operations grammar Member ends)

include hops

theorem not_goesOn_blank {text : List Char} (h : GoesOn ends (' ' :: text)) : False := by
  have hblank := goesOn_cons.mp h
  rw [hops.blank] at hblank
  cases hblank

/-- What can be cut off as an operand can be cut off as a whole, for no blank follows a whole. -/
theorem separable_of_operand {e : Expr} (he : e.isBinary = false)
    (h : CutsOff (Expr.operand grammar) Member (endsOperand ends) e) :
    e.Separable grammar Member ends := by
  refine ⟨?_, h⟩
  intro other hother r s hr hs heq
  rw [← Expr.operand_eq_text he] at heq
  cases hbinary : other.isBinary with
  | false =>
    rw [← Expr.operand_eq_text hbinary] at heq
    exact h other hother r s (goesOn_operand hr) (goesOn_operand hs) heq
  | true =>
    cases other with
    | binary op left right =>
      rw [Expr.text_binary_append] at heq
      obtain ⟨-, rfl⟩ := h left (hops.left hother) _ _ (goesOn_operand hr) (goesOn_blank _) heq
      exact (hops.not_goesOn_blank hr).elim
    | _ => cases hbinary

/-- An operation is cut at the blanks around its operator. -/
theorem cutsOff_binary (op : BinaryOp) {left right : Expr}
    (hleft : left.Separable grammar Member ends) (hright : right.Separable grammar Member ends) :
    CutsOff (Expr.text grammar) Member ends (.binary op left right) := by
  intro other hother r s hr hs heq
  rw [Expr.text_binary_append] at heq
  cases hbinary : other.isBinary with
  | false =>
    rw [← Expr.operand_eq_text hbinary] at heq
    obtain ⟨-, rfl⟩ := hleft.operand other hother _ s (goesOn_blank _) (goesOn_operand hs) heq
    exact (hops.not_goesOn_blank hs).elim
  | true =>
    cases other with
    | binary op' left' right' =>
      rw [Expr.text_binary_append] at heq
      obtain ⟨rfl, hafter⟩ :=
        hleft.operand left' (hops.left hother) _ _ (goesOn_blank _) (goesOn_blank _) heq
      obtain ⟨rfl, hoperand⟩ := binaryWord_append_inj (List.cons.inj hafter).2
      obtain ⟨rfl, hrest⟩ := hright.operand right' (hops.right hother) r s (goesOn_operand hr)
        (goesOn_operand hs) hoperand
      exact ⟨rfl, hrest⟩
    | _ => cases hbinary

/-- As an operand an operation is cut at its closing parenthesis. -/
theorem separable_binary {op : BinaryOp} {left right : Expr}
    (hleft : left.Separable grammar Member ends) (hright : right.Separable grammar Member ends) :
    Expr.Separable grammar Member ends (.binary op left right) := by
  have hwhole := hops.cutsOff_binary op hleft hright
  refine ⟨hwhole, ?_⟩
  intro other hother r s _ hs heq
  rw [Expr.operand_binary, parenthesized, List.append_assoc] at heq
  cases hbinary : other.isBinary with
  | false =>
    rw [Expr.operand_eq_text hbinary] at heq
    exact absurd heq.symm (hops.bracketed hother hbinary s _ hs)
  | true =>
    cases other with
    | binary op' left' right' =>
      rw [Expr.operand_binary, parenthesized, List.append_assoc] at heq
      have hclose : ∀ text, GoesOn ends (')' :: text) := fun _ => goesOn_cons.mpr hops.close
      obtain ⟨heq, hrest⟩ := hwhole _ hother _ _ (hclose r) (hclose s) (List.cons.inj heq).2
      exact ⟨heq, (List.cons.inj hrest).2⟩
    | _ => cases hbinary

end Operations

end Operations

end ExpandTree
