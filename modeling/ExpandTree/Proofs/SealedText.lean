import ExpandTree.Proofs.Scanning
import ExpandTree.Proofs.Stability

/-!
Sealed texts of values. In a tree whose names hold no quote, parenthesis or separator, every
literal, path, expression and select item is written as a text sealed against commas and semicolons:
what separates keys, arguments and nested items stands in parentheses, and what a string holds
stands in quotes. Search terms are left out, for a scan of query text does not know their phrases.
-/
namespace ExpandTree

open Text

/-- What options and the items of lists are separated by. -/
def listSeparators : List Char := [',', ';']

def delimiters : List Char := marks ++ listSeparators

/-- Text without quotes, parentheses and separators. Letters and digits of any script are none of
these, nor are the signs that names may hold. -/
def Plain (text : List Char) : Prop := ∀ c ∈ text, c ∉ delimiters

-- Goes through the text, not through all characters there are.
instance (text : List Char) : Decidable (Plain text) := List.decidableBAll _ text

section PlainText

variable {a b : List Char}

theorem Plain.append (ha : Plain a) (hb : Plain b) : Plain (a ++ b) :=
  List.forall_mem_append.mpr ⟨ha, hb⟩

theorem Plain.sealed (h : Plain a) : Sealed listSeparators a :=
  sealed_of_forall fun c hc => not_or.mp fun hmem => h c hc (List.mem_append.mpr hmem)

theorem plain_of_digits (h : ∀ c ∈ a, c.isDigit = true) : Plain a := by
  have hdelimiters : delimiters.all (!Char.isDigit ·) = true := by decide
  intro c hc hmem
  have hdigit := List.all_eq_true.mp hdelimiters c hmem
  rw [h c hc] at hdigit
  cases hdigit

theorem plain_natText (n : Nat) : Plain (natText n) :=
  plain_of_digits fun _ hc => isDigit_of_mem_natText hc

theorem Plain.signed (h : Plain a) : Plain ('-' :: a) :=
  Plain.append (a := ['-']) (by decide) h

theorem plain_int64Text (n : Int64) : Plain (int64Text n) := by
  unfold int64Text intText
  split
  · exact (plain_natText _).signed
  · exact plain_natText _

theorem plain_zeros (n : Nat) : Plain (List.replicate n '0') := by
  intro c hc
  rw [List.eq_of_mem_replicate hc]
  decide

theorem Plain.pointed (h : Plain a) (n : Nat) : Plain (a.take n ++ '.' :: a.drop n) := by
  have hfraction : Plain ('.' :: a.drop n) :=
    Plain.append (a := ['.']) (by decide) fun c hc => h c (List.mem_of_mem_drop hc)
  exact Plain.append (fun c hc => h c (List.mem_of_mem_take hc)) hfraction

theorem Decimal.plain_text (d : Decimal) : Plain d.text := by
  have hunsigned : Plain (unsignedText d.coefficient d.scale) := by
    unfold unsignedText
    split
    · exact plain_natText _
    · exact ((plain_zeros _).append (plain_natText _)).pointed _
  unfold Decimal.text
  split
  · exact hunsigned.signed
  · exact hunsigned

namespace Double

theorem plain_placed (form : DecimalForm) : Plain (placed form) := by
  unfold placed
  split
  · exact ((plain_natText _).append (plain_zeros _)).append (by decide)
  · exact ((plain_zeros _).append (plain_natText _)).pointed _

theorem plain_scientific (plusSign : Bool) (power : Int) {digits : List Char}
    (h : Plain digits) : Plain (scientific plusSign power digits) := by
  have hsign : Plain (if power < 0 then ['-'] else if plusSign then ['+'] else []) := by
    split
    · decide
    · split <;> decide
  have hmark : Plain ['e'] := by decide
  have hexponent := (hmark.append hsign).append (plain_natText power.natAbs)
  cases digits with
  | nil => simpa [scientific] using hexponent
  | cons first rest =>
    cases rest with
    | nil => simpa [scientific] using h.append hexponent
    | cons second rest => simpa [scientific] using (h.pointed 1).append hexponent

theorem plain_text (layout : Layout) (d : Double) : Plain (text layout d) := by
  have hunsigned : ∀ form : DecimalForm, ∀ power : Int,
      Plain (if form.digits = 0 ∨ layout.placesFrom ≤ power ∧ power < 16 then placed form
        else scientific layout.plusSign power (natText form.digits)) := by
    intro form power
    split
    · exact plain_placed form
    · exact plain_scientific _ _ (plain_natText _)
  unfold text
  split
  · unfold finiteText
    dsimp only
    split
    · exact (hunsigned _ _).signed
    · exact hunsigned _ _
  · unfold specialText
    split
    · decide
    · split <;> decide

end Double

end PlainText

theorem Literal.sealed (l : Literal) : Sealed listSeparators l.text := by
  cases l with
  | null => exact Plain.sealed (by decide)
  | boolean b => cases b <;> exact Plain.sealed (by decide)
  | int64 n => exact (plain_int64Text n).sealed
  | double d => exact (d.plain_text .query).sealed
  | decimal d => exact d.plain_text.sealed
  | string s => exact sealed_quotedString (by decide) s.toList

/-- The names that a token shows itself: identifiers and names of keys, properties, functions, and
names given to values. -/
def Segment.names (s : Segment) : List String :=
  s.identifier :: (s.keys.getD []).filterMap KeyValue.name

def Token.names : Token → List String
  | .path p => p.segments.flatMap Segment.names
  | .expr (.property name) => [name]
  | .expr (.member _ name) => [name]
  | .expr (.call function _) => [function]
  | .expr (.aggregate items) => items.map Aggregation.name
  | .computed c => [c.name]
  | _ => []

def Token.isSearchTerm : Token → Bool
  | .expr (.search _) => true
  | _ => false

/-- A scan can read the text of such a token. -/
structure Token.Scannable (token : Token) : Prop where
  plain : ∀ name ∈ token.names, Plain name.toList
  notSearchTerm : token.isSearchTerm = false

instance (token : Token) : Decidable token.Scannable :=
  decidable_of_iff ((∀ name ∈ token.names, Plain name.toList) ∧ token.isSearchTerm = false)
    ⟨fun h => ⟨h.1, h.2⟩, fun h => ⟨h.plain, h.notSearchTerm⟩⟩

section SealedTexts

variable {separators written : List Char} {pieces : List (List Char)}

theorem sealed_parentheses (h : Sealed separators written) :
    Sealed listSeparators (parenthesized written) :=
  sealed_parenthesized (by decide) (h.mono (List.nil_subset _))

/-- A list of texts shows the commas between them and no semicolon. -/
theorem sealed_list (h : ∀ piece ∈ pieces, Sealed listSeparators piece) :
    Sealed [';'] (join [','] pieces) :=
  sealed_join (sealed_singleton (by decide) (by decide)) fun piece hpiece =>
    (h piece hpiece).mono (by decide)

theorem sealed_listed (h : ∀ piece ∈ pieces, Sealed listSeparators piece) :
    Sealed listSeparators (parenthesized (join [','] pieces)) :=
  sealed_parentheses (sealed_list h)

theorem KeyValue.sealed {key : KeyValue} (h : ∀ name ∈ key.name, Plain name.toList) :
    Sealed listSeparators key.text := by
  obtain ⟨name, value⟩ := key
  cases name with
  | none => exact value.sealed
  | some name =>
    have hname : Plain (name.toList ++ ['=']) := (h name rfl).append (by decide)
    have hkey := hname.sealed.append value.sealed
    rwa [List.append_assoc] at hkey

theorem Segment.sealed {s : Segment} (h : ∀ name ∈ s.names, Plain name.toList) :
    Sealed listSeparators s.text := by
  obtain ⟨identifier, kind, keys⟩ := s
  obtain ⟨hidentifier, hkeys⟩ := List.forall_mem_cons.mp h
  cases keys with
  | none => exact hidentifier.sealed
  | some keys =>
    cases keys with
    | nil => exact hidentifier.sealed
    | cons key keys =>
      have hlist : ∀ t ∈ (key :: keys).map KeyValue.text, Sealed listSeparators t := by
        refine List.forall_mem_map.mpr fun k hk => KeyValue.sealed fun name hname => ?_
        exact hkeys name (List.mem_filterMap.mpr ⟨k, hk, hname⟩)
      have hsegment := hidentifier.sealed.append (sealed_listed hlist)
      rwa [parenthesized, ← List.append_assoc] at hsegment

theorem Path.sealed {p : Path} (h : (Token.path p).Scannable) : Sealed listSeparators p.text := by
  refine sealed_join (Plain.sealed (by decide)) (List.forall_mem_map.mpr fun s hs => ?_)
  exact Segment.sealed fun name hname => h.plain name (List.mem_flatMap_of_mem hs hname)

namespace Expr

variable {grammar : Grammar}

theorem sealed_operandText (e : Expr) (h : Sealed listSeparators written) :
    Sealed listSeparators (operandText e written) := by
  unfold operandText
  split
  · exact sealed_parentheses h
  · exact h

theorem plain_binaryWord (grammar : Grammar) (op : BinaryOp) :
    Plain (' ' :: binaryWord grammar op) := by
  cases grammar <;> cases op <;> decide

theorem plain_unaryLead (grammar : Grammar) (op : UnaryOp) : Plain (unaryLead grammar op) := by
  cases grammar <;> cases op <;> decide

theorem sealed_texts {es : List Expr} (h : ∀ e ∈ es, Sealed listSeparators (e.text grammar)) :
    ∀ t ∈ texts grammar es, Sealed listSeparators t := by
  rw [texts_eq_map]
  exact List.forall_mem_map.mpr h

theorem sealed_aggregation {item : Aggregation} (hname : Plain item.name.toList)
    (h : Sealed listSeparators (item.expression.text grammar)) :
    Sealed listSeparators (item.text grammar) := by
  have hmethod : Plain (" with ".toList ++ item.method.keyword.toList ++ " as ".toList) := by
    cases item.method <;> decide
  unfold Aggregation.text
  split
  · exact (Plain.append (a := "$count as ".toList) (by decide) hname).sealed
  · have htext := h.append (hmethod.append hname).sealed
    simpa using htext

theorem sealed (grammar : Grammar) (e : Expr) (h : ∀ token ∈ e.tokens, token.Scannable) :
    Sealed listSeparators (e.text grammar) := by
  induction e using Expr.induction with
  | literal value => exact value.sealed
  | property name => exact ((h _ List.mem_cons_self).plain name List.mem_cons_self).sealed
  | member parent name ih =>
    obtain ⟨hself, hbelow⟩ := forall_tokens_iff.mp h
    have hname : Plain ('/' :: name.toList) :=
      Plain.append (a := ['/']) (by decide) (hself.plain name List.mem_cons_self)
    exact (ih (hbelow parent List.mem_cons_self)).append hname.sealed
  | binary op left right ihl ihr =>
    obtain ⟨-, hbelow⟩ := forall_tokens_iff.mp h
    have hleft := ihl (hbelow left List.mem_cons_self)
    have hright := ihr (hbelow right (List.mem_cons_of_mem left List.mem_cons_self))
    have hlead := (sealed_operandText left hleft).append (plain_binaryWord grammar op).sealed
    have hblank : Sealed listSeparators [' '] := Plain.sealed (by decide)
    exact hlead.append (hblank.append (sealed_operandText right hright))
  | unary op operand ih =>
    obtain ⟨-, hbelow⟩ := forall_tokens_iff.mp h
    have hoperand := ih (hbelow operand List.mem_cons_self)
    exact (plain_unaryLead grammar op).sealed.append (sealed_operandText operand hoperand)
  | call function arguments ih =>
    obtain ⟨hself, hbelow⟩ := forall_tokens_iff.mp h
    have hfunction := (hself.plain function List.mem_cons_self).sealed
    exact hfunction.append (sealed_listed (sealed_texts fun e he => ih e he (hbelow e he)))
  | star => exact Plain.sealed (a := ['*']) (by decide)
  | search term => exact Bool.noConfusion (h _ List.mem_cons_self).notSearchTerm
  | aggregate items ih =>
    obtain ⟨hself, hbelow⟩ := forall_tokens_iff.mp h
    have hlist : ∀ t ∈ aggregationTexts grammar items, Sealed listSeparators t := by
      rw [aggregationTexts_eq_map]
      refine List.forall_mem_map.mpr fun item hitem => ?_
      have hname := hself.plain item.name (List.mem_map_of_mem hitem)
      exact sealed_aggregation hname (ih item hitem (hbelow _ (List.mem_map_of_mem hitem)))
    exact (Plain.sealed (by decide)).append (sealed_listed hlist)
  | groupBy properties ih =>
    obtain ⟨-, hbelow⟩ := forall_tokens_iff.mp h
    have hlist := sealed_listed (sealed_texts fun e he => ih e he (hbelow e he))
    exact (Plain.sealed (by decide)).append (sealed_parentheses hlist)
  | groupByThen properties child ih ihc =>
    obtain ⟨hbelow, hchild⟩ := List.forall_mem_append.mp (forall_tokens_iff.mp h).2
    have hlist := sealed_listed (sealed_texts fun e he => ih e he (hbelow e he))
    have hlast := ihc (hchild child List.mem_cons_self)
    have hcomma : Sealed [';'] [','] := sealed_singleton (by decide) (by decide)
    have hthen := hcomma.append (hlast.mono (by decide))
    exact (Plain.sealed (by decide)).append
      (sealed_parentheses ((hlist.mono (by decide)).append hthen))

end Expr

theorem sealed_assigned (part : TermPart) (h : Sealed [';'] written) :
    Sealed [';'] (assigned part written) := by
  have hlead : Plain ('$' :: part.word.toList ++ ['=']) := by
    cases part <;> decide
  have hoption := (hlead.sealed.mono (by decide)).append h
  rwa [List.append_assoc] at hoption

theorem SelectItem.sealed (item : SelectItem) (h : ∀ token ∈ item.tokens, token.Scannable) :
    Sealed listSeparators item.text := by
  induction item using SelectItem.induction with
  | item path select ih =>
    obtain ⟨-, hpath, hselect⟩ := forall_tokens_iff.mp h
    cases select with
    | none => exact Path.sealed hpath
    | some items =>
      obtain ⟨-, hitems⟩ := hselect items rfl
      have hlist : ∀ piece ∈ texts items, Sealed listSeparators piece := by
        rw [texts_eq_map]
        exact List.forall_mem_map.mpr fun item hitem => ih items rfl item hitem (hitems item hitem)
      exact (Path.sealed hpath).append
        (sealed_parentheses (sealed_assigned .select (sealed_list hlist)))

theorem OrderItem.sealed (style : Style) {item : OrderItem}
    (h : ∀ token ∈ item.expression.tokens, token.Scannable) :
    Sealed listSeparators (item.text style) := by
  have hexpression := item.expression.sealed .plain h
  unfold OrderItem.text
  dsimp only
  split
  · exact hexpression.append (Plain.sealed (by decide))
  · split
    · exact hexpression.append (Plain.sealed (by decide))
    · exact hexpression

theorem Computed.sealed {c : Computed} (hc : (Token.computed c).Scannable)
    (h : ∀ token ∈ c.expression.tokens, token.Scannable) : Sealed listSeparators c.text :=
  ((c.expression.sealed .plain h).append (Plain.sealed (by decide))).append
    (Plain.sealed (hc.plain c.name List.mem_cons_self))

end SealedTexts

end ExpandTree
