import ExpandTree.Proofs.Cutting

/-!
Search text says which expression it was written for. A term is a word, which ends where its
characters end, or a phrase, which ends at the first quote that no backslash escapes. The word of
a negation is never written for a term, and a parenthesis opens nothing but an operation.
-/
namespace ExpandTree

open Text

section Phrases

/-- The inside of a phrase. -/
def escapedPhrase (term : List Char) : List Char :=
  term.flatMap fun c => if c = '\\' ∨ c = '"' then ['\\', c] else [c]

theorem phrase_append (term r : List Char) :
    phrase term ++ r = '"' :: (escapedPhrase term ++ '"' :: r) := by
  simp [phrase, escapedPhrase]

theorem escapedPhrase_special {c : Char} (hc : c = '\\' ∨ c = '"') (term : List Char) :
    escapedPhrase (c :: term) = '\\' :: c :: escapedPhrase term := by
  simp [escapedPhrase, hc]

theorem escapedPhrase_cons {c : Char} (hc : ¬(c = '\\' ∨ c = '"')) (term : List Char) :
    escapedPhrase (c :: term) = c :: escapedPhrase term := by
  simp [escapedPhrase, hc]

/-- Inside a phrase a quote has a backslash before it. -/
theorem escapedPhrase_append_ne {c : Char} {term r s : List Char} :
    escapedPhrase (c :: term) ++ r ≠ '"' :: s := by
  intro h
  by_cases hc : c = '\\' ∨ c = '"'
  · rw [escapedPhrase_special hc] at h
    exact absurd (List.cons.inj h).1 (by decide)
  · rw [escapedPhrase_cons hc] at h
    exact hc (Or.inr (List.cons.inj h).1)

theorem escapedPhrase_append_inj {s t r r' : List Char}
    (h : escapedPhrase s ++ '"' :: r = escapedPhrase t ++ '"' :: r') : s = t ∧ r = r' := by
  induction s generalizing t with
  | nil =>
    cases t with
    | nil => exact ⟨rfl, (List.cons.inj h).2⟩
    | cons d t => exact absurd h.symm escapedPhrase_append_ne
  | cons c s ih =>
    cases t with
    | nil => exact absurd h escapedPhrase_append_ne
    | cons d t =>
      by_cases hc : c = '\\' ∨ c = '"' <;> by_cases hd : d = '\\' ∨ d = '"'
      · rw [escapedPhrase_special hc, escapedPhrase_special hd] at h
        obtain ⟨rfl, htail⟩ := List.cons.inj (List.cons.inj h).2
        obtain ⟨rfl, hrest⟩ := ih htail
        exact ⟨rfl, hrest⟩
      · rw [escapedPhrase_special hc, escapedPhrase_cons hd] at h
        exact absurd (Or.inl (List.cons.inj h).1.symm) hd
      · rw [escapedPhrase_cons hc, escapedPhrase_special hd] at h
        exact absurd (Or.inl (List.cons.inj h).1) hc
      · rw [escapedPhrase_cons hc, escapedPhrase_cons hd] at h
        obtain ⟨rfl, htail⟩ := List.cons.inj h
        obtain ⟨rfl, hrest⟩ := ih htail
        exact ⟨rfl, hrest⟩

/-- A phrase ends at the first quote that no backslash escapes, whatever follows it. -/
theorem phrase_append_inj {s t r r' : List Char} (h : phrase s ++ r = phrase t ++ r') :
    s = t ∧ r = r' := by
  rw [phrase_append, phrase_append] at h
  exact escapedPhrase_append_inj (List.cons.inj h).2

end Phrases

section Terms

/-- What may follow a whole search expression: the end of an operand that has parentheses. -/
def endsSearch (c : Char) : Bool := c == ')'

theorem GoesOn.not_isWordChar {text : List Char} (h : GoesOn (endsOperand endsSearch) text) :
    GoesOn (!isWordChar ·) text := by
  refine h.mono fun c hc => ?_
  have hcases : c = ')' ∨ c = ' ' := by simpa [endsOperand, endsSearch] using hc
  rcases hcases with rfl | rfl <;> rfl

theorem isSearchWord_iff {term : List Char} :
    isSearchWord term = true ↔
      term ≠ [] ∧ (∀ c ∈ term, isWordChar c = true) ∧ term ∉ reservedWords := by
  simp [isSearchWord, and_assoc]

/-- A term opens with a quote or with a character of a word. -/
theorem searchTermText_append_ne {c : Char} (hquote : c ≠ '"') (hword : isWordChar c = false)
    {term r s : List Char} : searchTermText term ++ r ≠ c :: s := by
  intro h
  unfold searchTermText at h
  split at h
  · rename_i hterm
    obtain ⟨hne, hchars, -⟩ := isSearchWord_iff.mp hterm
    cases term with
    | nil => exact hne rfl
    | cons d term =>
      have hd := hchars d List.mem_cons_self
      rw [(List.cons.inj h).1, hword] at hd
      cases hd
  · exact hquote (List.cons.inj h).1.symm

/-- The word of a negation is reserved, so a term is not taken for it. -/
theorem searchTermText_append_ne_not {term r s : List Char}
    (hr : GoesOn (endsOperand endsSearch) r) (op : UnaryOp) :
    searchTermText term ++ r ≠ unaryLead .search op ++ s := by
  intro h
  unfold searchTermText at h
  split at h
  · rename_i hterm
    obtain ⟨-, hchars, hfree⟩ := isSearchWord_iff.mp hterm
    have hblank : GoesOn (!isWordChar ·) (' ' :: s) := goesOn_cons.mpr rfl
    obtain ⟨hword, -⟩ := word_append_inj (w := ['N', 'O', 'T']) hchars (List.all_eq_true.mp rfl)
      hr.not_isWordChar hblank h
    rw [hword] at hfree
    exact hfree (by decide)
  · exact absurd (List.cons.inj h).1 (by decide)

theorem append_ne_phrase {word term r s : List Char} (h : isSearchWord word = true) :
    word ++ r ≠ phrase term ++ s := by
  intro heq
  obtain ⟨hne, hchars, -⟩ := isSearchWord_iff.mp h
  obtain ⟨c, rest, rfl⟩ := List.exists_cons_of_ne_nil hne
  have hc := hchars c List.mem_cons_self
  rw [(List.cons.inj heq).1] at hc
  exact absurd hc (by decide)

theorem searchTermText_append_inj {s t r r' : List Char}
    (hr : GoesOn (endsOperand endsSearch) r) (hr' : GoesOn (endsOperand endsSearch) r')
    (h : searchTermText s ++ r = searchTermText t ++ r') : s = t ∧ r = r' := by
  unfold searchTermText at h
  split at h <;> split at h
  · rename_i hs ht
    exact word_append_inj (isSearchWord_iff.mp hs).2.1 (isSearchWord_iff.mp ht).2.1
      hr.not_isWordChar hr'.not_isWordChar h
  · rename_i hs _
    exact absurd h (append_ne_phrase hs)
  · rename_i _ ht
    exact absurd h.symm (append_ne_phrase ht)
  · exact phrase_append_inj h

end Terms

namespace Expr

/-- Search expressions: terms of any text, operations and negations by a word. -/
inductive Searchable : Expr → Prop where
  | search (term : String) : Searchable (.search term)
  | binary {op : BinaryOp} {left right : Expr} : Searchable left → Searchable right →
      Searchable (.binary op left right)
  | not {operand : Expr} : Searchable operand → Searchable (.unary .not operand)

theorem operand_search (term : String) :
    operand .search (.search term) = searchTermText term.toList := rfl

theorem operand_not (e : Expr) :
    operand .search (.unary .not e) = unaryLead .search .not ++ e.operand .search := rfl

end Expr

theorem searchOperations : Operations .search Expr.Searchable endsSearch where
  left h := by cases h with | binary hleft hright => exact hleft
  right h := by cases h with | binary hleft hright => exact hright
  bracketed := by
    intro e he hbinary r s hr h
    rw [← Expr.operand_eq_text hbinary] at h
    cases he with
    | search term => exact searchTermText_append_ne (by decide) rfl h
    | binary => cases hbinary
    | not => exact absurd (List.cons.inj h).1 (by decide)
  blank := rfl
  close := rfl

namespace Expr

theorem cutsOff_search (term : String) :
    CutsOff (operand .search) Searchable (endsOperand endsSearch) (.search term) := by
  intro other hother r s hr hs h
  rw [operand_search] at h
  cases hother with
  | search other =>
    obtain ⟨hterm, hrest⟩ := searchTermText_append_inj hr hs h
    exact ⟨by rw [String.toList_inj.mp hterm], hrest⟩
  | binary => exact absurd h (searchTermText_append_ne (by decide) rfl)
  | not =>
    rw [operand_not, List.append_assoc] at h
    exact absurd h (searchTermText_append_ne_not hr .not)

theorem cutsOff_not {e : Expr}
    (he : CutsOff (operand .search) Searchable (endsOperand endsSearch) e) :
    CutsOff (operand .search) Searchable (endsOperand endsSearch) (.unary .not e) := by
  intro other hother r s hr hs h
  rw [operand_not, List.append_assoc] at h
  cases hother with
  | search other => exact absurd h.symm (searchTermText_append_ne_not hs .not)
  | binary => exact absurd (List.cons.inj h).1 (by decide)
  | @not other hother =>
    rw [operand_not, List.append_assoc] at h
    obtain ⟨rfl, hrest⟩ := he other hother r s hr hs (List.append_cancel_left h)
    exact ⟨rfl, hrest⟩

/-- Every search expression can be cut off. -/
theorem Searchable.separable {e : Expr} (he : e.Searchable) :
    e.Separable .search Searchable endsSearch := by
  induction he with
  | search term => exact searchOperations.separable_of_operand rfl (cutsOff_search term)
  | binary _ _ ihleft ihright => exact searchOperations.separable_binary ihleft ihright
  | not _ ih => exact searchOperations.separable_of_operand rfl (cutsOff_not ih.operand)

/-- Search expressions are written alike only if they are the same. -/
theorem searchText_eq_searchText_iff {e other : Expr} (he : e.Searchable)
    (hother : other.Searchable) : e.text .search = other.text .search ↔ e = other := by
  have hend : GoesOn endsSearch [] := fun c hc => by cases hc
  constructor
  · intro h
    exact (he.separable.whole other hother [] [] hend hend (by rw [h])).1
  · intro h
    rw [h]

/-- A term that is the word of a negation is written as a phrase, so the term before an operator is
told from the negation of what follows. -/
theorem searchText_eq_searchText_reservedWord :
    Searchable (.binary .and (.search "NOT") (.search "a \\\"b")) ∧
      Searchable (.unary .not (.binary .and (.search "AND") (.search "a \\\"b"))) ∧
      (text .search (.binary .and (.search "NOT") (.search "a \\\"b")) =
          text .search (.unary .not (.binary .and (.search "AND") (.search "a \\\"b"))) ↔
        binary .and (search "NOT") (search "a \\\"b") =
          unary .not (binary .and (search "AND") (search "a \\\"b"))) :=
  have hterms := .binary (.search "NOT") (.search "a \\\"b")
  have hnegation := .not (.binary (.search "AND") (.search "a \\\"b"))
  ⟨hterms, hnegation, searchText_eq_searchText_iff hterms hnegation⟩

end Expr

end ExpandTree
