import ExpandTree.Proofs.Scanning
import ExpandTree.Proofs.SearchText

/-!
Where a search ends that stands among other options. A scan of search text goes through phrases and
through what stands in parentheses, and stops at a semicolon or at a parenthesis that it did not
open. Words hold no parenthesis and no quote, but they may hold a semicolon, and a scan stops there
unless an operation with the word is in parentheses.
-/
namespace ExpandTree

open Text

inductive PhrasePart where
  | outside
  | inside
  | escaped
  deriving DecidableEq

/-- Where a scan of search text stands: how many parentheses are open, and in which part of a
phrase it is. -/
structure SearchScan where
  depth : Nat
  part : PhrasePart
  deriving DecidableEq

namespace SearchScan

def outside (depth : Nat) : SearchScan := ⟨depth, .outside⟩

def inside (depth : Nat) : SearchScan := ⟨depth, .inside⟩

def escaped (depth : Nat) : SearchScan := ⟨depth, .escaped⟩

/-- Whether the next character belongs to the options around the search. -/
def stops (s : SearchScan) (c : Char) : Bool := s = outside 0 ∧ (c = ';' ∨ c = ')')

/-- In a phrase a backslash takes the next character with it. -/
def next (s : SearchScan) (c : Char) : SearchScan :=
  match s.part with
  | .escaped => inside s.depth
  | .inside =>
      if c = '\\' then escaped s.depth
      else if c = '"' then outside s.depth
      else s
  | .outside =>
      if c = '"' then inside s.depth
      else if c = '(' then outside (s.depth + 1)
      else if c = ')' then outside (s.depth - 1)
      else s

def leftoverFrom (s : SearchScan) : List Char → List Char
  | [] => []
  | c :: rest => if s.stops c then c :: rest else leftoverFrom (s.next c) rest

/-- A scan goes on to the end of the text. -/
abbrev GoesThrough (s : SearchScan) (text : List Char) : Prop :=
  Along next (fun s c => s.stops c = false) s text

end SearchScan

open SearchScan

/-- What a scan leaves of search text. -/
def leftover (text : List Char) : List Char := leftoverFrom (outside 0) text

theorem leftoverFrom_eq_nil_iff {s : SearchScan} {text : List Char} :
    leftoverFrom s text = [] ↔ GoesThrough s text := by
  induction text generalizing s with
  | nil => exact iff_of_true rfl trivial
  | cons c rest ih =>
    rw [leftoverFrom, GoesThrough, Along]
    cases s.stops c with
    | true => simp
    | false => simpa using ih

/-- A scan comes back from the text to where it stood. In parentheses it always goes through the
text, and outside of them under a condition. -/
structure ScannedIf (condition : Prop) (text : List Char) : Prop where
  returns : ∀ depth, text.foldl next (outside depth) = outside depth
  below : ∀ depth, GoesThrough (outside (depth + 1)) text
  top : GoesThrough (outside 0) text ↔ condition

section Scanned

variable {condition other : Prop} {text a b : List Char}

theorem ScannedIf.congr (h : ScannedIf condition text) (hiff : condition ↔ other) :
    ScannedIf other text :=
  ⟨h.returns, h.below, h.top.trans hiff⟩

theorem ScannedIf.append (ha : ScannedIf condition a) (hb : ScannedIf other b) :
    ScannedIf (condition ∧ other) (a ++ b) where
  returns depth := by rw [List.foldl_append, ha.returns, hb.returns]
  below depth := by
    refine along_append.mpr ⟨ha.below depth, ?_⟩
    rw [ha.returns]
    exact hb.below depth
  top := by
    rw [GoesThrough, along_append, ha.returns]
    exact and_congr ha.top hb.top

/-- A character that neither starts a phrase nor is a parenthesis. -/
def isUnmarked (c : Char) : Bool := c != '"' && c != '(' && c != ')'

/-- Outside of phrases such a character leaves a scan where it is. -/
theorem scannedIf_cons {c : Char} (hmark : isUnmarked c = true)
    (h : ScannedIf condition text) : ScannedIf (c ≠ ';' ∧ condition) (c :: text) := by
  simp only [isUnmarked, Bool.and_eq_true, bne_iff_ne, and_assoc] at hmark
  obtain ⟨hquote, hopen, hclose⟩ := hmark
  have hnext : ∀ depth, (outside depth).next c = outside depth := by
    simp [next, outside, hquote, hopen, hclose]
  refine ⟨fun depth => ?_, fun depth => ?_, ?_⟩
  · rw [List.foldl_cons, hnext, h.returns]
  · rw [GoesThrough, Along, hnext]
    exact ⟨by simp [stops, outside], h.below depth⟩
  · rw [GoesThrough, Along, hnext, ← h.top]
    exact and_congr_left' (by simp [stops, hclose])

theorem scannedIf_nil : ScannedIf True [] :=
  ⟨fun _ => rfl, fun _ => trivial, iff_of_true trivial trivial⟩

theorem scannedIf_unmarked (h : text.all isUnmarked = true) :
    ScannedIf (';' ∉ text) text := by
  induction text with
  | nil => exact scannedIf_nil.congr (by simp)
  | cons c rest ih =>
    obtain ⟨hc, hrest⟩ := Bool.and_eq_true_iff.mp (List.all_cons.symm.trans h)
    refine (scannedIf_cons hc (ih hrest)).congr ?_
    rw [List.mem_cons, not_or, ne_comm]

/-- In parentheses the condition on a text does not matter. -/
theorem scannedIf_parenthesized (h : ScannedIf condition text) :
    ScannedIf True (parenthesized text) := by
  have hthrough : ∀ depth, GoesThrough (outside depth) (parenthesized text) := by
    intro depth
    refine ⟨by simp [stops], along_append.mpr ⟨h.below depth, ?_⟩⟩
    change GoesThrough (text.foldl next (outside (depth + 1))) [')']
    rw [h.returns]
    exact ⟨by simp [stops, outside], trivial⟩
  refine ⟨fun depth => ?_, fun depth => hthrough _, iff_of_true (hthrough 0) trivial⟩
  change (text ++ [')']).foldl next (outside (depth + 1)) = _
  rw [List.foldl_append, h.returns]
  rfl

/-- Nothing in a phrase ends it or stops a scan. -/
theorem goesThrough_escapedPhrase (depth : Nat) (term : List Char) :
    (escapedPhrase term).foldl next (inside depth) = inside depth ∧
      GoesThrough (inside depth) (escapedPhrase term) := by
  have hstops : ∀ c, (inside depth).stops c = false := by simp [stops, inside, outside]
  induction term with
  | nil => exact ⟨rfl, trivial⟩
  | cons c term ih =>
    by_cases hc : c = '\\' ∨ c = '"'
    · rw [escapedPhrase_special hc]
      exact ⟨ih.1, hstops _, by simp [stops, next, inside, escaped, outside], ih.2⟩
    · rw [escapedPhrase_cons hc, List.foldl_cons, GoesThrough, Along]
      obtain ⟨hbackslash, hquote⟩ := not_or.mp hc
      have hnext : (inside depth).next c = inside depth := by
        simp [next, inside, hbackslash, hquote]
      rw [hnext]
      exact ⟨ih.1, hstops c, ih.2⟩

theorem scannedIf_phrase (term : List Char) : ScannedIf True (phrase term) := by
  have hphrase : phrase term = '"' :: (escapedPhrase term ++ ['"']) := by
    simpa using phrase_append term []
  have hthrough : ∀ depth, (phrase term).foldl next (outside depth) = outside depth ∧
      GoesThrough (outside depth) (phrase term) := by
    intro depth
    obtain ⟨hreturns, hgoes⟩ := goesThrough_escapedPhrase depth term
    rw [hphrase, List.foldl_cons, List.foldl_append]
    change List.foldl next ((escapedPhrase term).foldl next (inside depth)) ['"'] = _ ∧ _
    rw [hreturns]
    refine ⟨rfl, by simp [stops], along_append.mpr ⟨hgoes, ?_⟩⟩
    change GoesThrough ((escapedPhrase term).foldl next (inside depth)) ['"']
    rw [hreturns]
    exact ⟨by simp [stops], trivial⟩
  exact ⟨fun depth => (hthrough depth).1, fun depth => (hthrough _).2,
    iff_of_true (hthrough 0).2 trivial⟩

theorem isUnmarked_of_isWordChar {c : Char} (h : isWordChar c = true) : isUnmarked c = true := by
  simp only [isWordChar, Bool.and_eq_true] at h
  simp only [isUnmarked, Bool.and_eq_true]
  exact ⟨⟨h.2, h.1.1.2⟩, h.1.2⟩

/-- A phrase stops no scan, and a word only if it has a semicolon. -/
theorem scannedIf_searchTerm (term : List Char) :
    ScannedIf (';' ∈ term → isSearchWord term = false) (searchTermText term) := by
  unfold searchTermText
  split
  · rename_i hword
    obtain ⟨-, hchars, -⟩ := isSearchWord_iff.mp hword
    have hunmarked : term.all isUnmarked = true :=
      List.all_eq_true.mpr fun c hc => isUnmarked_of_isWordChar (hchars c hc)
    exact (scannedIf_unmarked hunmarked).congr (by simp [hword])
  · rename_i hphrase
    exact (scannedIf_phrase term).congr (by simp [hphrase])

end Scanned

namespace Expr

/-- The terms that are written outside of all parentheses. -/
def exposedTerms : Expr → List String
  | .search term => [term]
  | .binary _ left right =>
      (if left.isBinary then [] else left.exposedTerms) ++
        (if right.isBinary then [] else right.exposedTerms)
  | .unary _ operand => if operand.isBinary then [] else operand.exposedTerms
  | _ => []
  termination_by structural e => e

/-- No exposed term with a semicolon is written as a word. -/
def Enclosed (e : Expr) : Prop :=
  ∀ term ∈ e.exposedTerms, ';' ∈ term.toList → isSearchWord term.toList = false

theorem scannedIf_operand {e : Expr} (h : ScannedIf e.Enclosed (e.text .search)) :
    ScannedIf (∀ term ∈ if e.isBinary then [] else e.exposedTerms,
      ';' ∈ term.toList → isSearchWord term.toList = false) (e.operand .search) := by
  unfold operand operandText
  split
  · exact (scannedIf_parenthesized h).congr (by simp)
  · exact h

theorem scannedIf_searchText {e : Expr} (he : e.Searchable) :
    ScannedIf e.Enclosed (e.text .search) := by
  induction he with
  | search term =>
    refine (scannedIf_searchTerm term.toList).congr ?_
    simp only [Enclosed, exposedTerms, List.forall_mem_singleton]
  | @binary op left right _ _ ihl ihr =>
    have hword : ScannedIf True (' ' :: binaryWord .search op) := by
      cases op <;> exact (scannedIf_unmarked (by decide)).congr (by decide)
    have hblank : ScannedIf True [' '] := (scannedIf_unmarked (by decide)).congr (by decide)
    have hlead := (scannedIf_operand ihl).append hword
    refine (hlead.append (hblank.append (scannedIf_operand ihr))).congr ?_
    simp only [Enclosed, exposedTerms, List.forall_mem_append, and_true, true_and]
  | @not operand _ ih =>
    have hlead : ScannedIf True (unaryLead .search .not) :=
      (scannedIf_unmarked (by decide)).congr (by decide)
    refine (hlead.append (scannedIf_operand ih)).congr ?_
    simp only [Enclosed, exposedTerms, true_and]

/-- A scan of a search, as it stands among the options of a term, comes to its end if no word
outside of all parentheses has a semicolon, and only then. -/
theorem leftover_searchText_eq_nil_iff {e : Expr} (he : e.Searchable) :
    leftover (e.text .search) = [] ↔
      ∀ term ∈ e.exposedTerms, ';' ∈ term.toList → isSearchWord term.toList = false :=
  leftoverFrom_eq_nil_iff.trans (scannedIf_searchText he).top

example : leftover "\"a;b)\" AND (c OR d;e)".toList = [] := by decide

/-- A word with a semicolon in parentheses, a phrase with one outside of them. -/
def enclosedSearch : Expr :=
  .binary .and (.binary .or (.search "a;b") (.search "c")) (.unary .not (.search "d; e"))

theorem leftover_enclosedSearch :
    enclosedSearch.Searchable ∧ leftover (enclosedSearch.text .search) = [] := by
  have hsearchable : enclosedSearch.Searchable :=
    .binary (.binary (.search _) (.search _)) (.not (.search _))
  exact ⟨hsearchable, (leftover_searchText_eq_nil_iff hsearchable).mpr (by decide)⟩

/-- A word that spills into the options around it. -/
def spillingSearch : Expr := .search "red;$select=Id"

/-- What is left of it is read as another option, and the term has the text of one that selects. -/
theorem leftover_spillingSearch :
    spillingSearch.Searchable ∧
      leftover (spillingSearch.text .search) = ";$select=Id".toList ∧
      Term.text {} ⟨.last ⟨"Orders", .model, none⟩, { search := some spillingSearch }, none, none⟩ =
        Term.text {} ⟨.last ⟨"Orders", .model, none⟩, { search := some (.search "red") },
          some [⟨.last ⟨"Id", .model, none⟩, none⟩], none⟩ :=
  ⟨.search _, by decide, by decide⟩

end Expr

end ExpandTree
