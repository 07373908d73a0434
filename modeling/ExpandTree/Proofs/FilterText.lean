import ExpandTree.Proofs.Openings

/-!
Filter text says which expression it was written for. The opening of an operand tells its kind, and
behind it each part can be cut off in turn: the operand of a sign or a word, the name, arguments and
members of an access. So no two expressions of filters are written alike.
-/
namespace ExpandTree

open Text

section Steps

/-- The members at the end of an access, each behind its slash. -/
def stepsText (steps : List String) : List Char := steps.flatMap fun name => '/' :: name.toList

theorem stepsText_cons (name : String) (steps : List String) :
    stepsText (name :: steps) = '/' :: (name.toList ++ stepsText steps) := rfl

theorem goesOn_stepsText {next : Char → Bool} (hslash : next '/' = true) (steps : List String)
    {rest : List Char} (h : GoesOn next rest) : GoesOn next (stepsText steps ++ rest) := by
  cases steps with
  | nil => exact h
  | cons name steps => exact goesOn_cons.mpr hslash

theorem stepsText_append_inj {steps others : List String}
    (hsteps : ∀ name ∈ steps, isName name = true) (hothers : ∀ name ∈ others, isName name = true)
    {r s : List Char} (hr : GoesOn (endsOperand endsFilter) r)
    (hs : GoesOn (endsOperand endsFilter) s)
    (h : stepsText steps ++ r = stepsText others ++ s) : steps = others ∧ r = s := by
  induction steps generalizing others with
  | nil =>
    cases others with
    | nil => exact ⟨rfl, h⟩
    | cons name others => exact absurd h (hr.ne_cons (by decide))
  | cons name steps ih =>
    cases others with
    | nil => exact absurd h.symm (hs.ne_cons (by decide))
    | cons other others =>
      obtain ⟨hname, hsteps'⟩ := List.forall_mem_cons.mp hsteps
      obtain ⟨hother, hothers'⟩ := List.forall_mem_cons.mp hothers
      rw [stepsText_cons, stepsText_cons, List.cons_append, List.cons_append, List.append_assoc,
        List.append_assoc] at h
      obtain ⟨hword, hrest⟩ := word_append_inj (isName_iff.mp hname).2.1 (isName_iff.mp hother).2.1
        (goesOn_stepsText rfl steps hr.endsWord.not_isNameChar)
        (goesOn_stepsText rfl others hs.endsWord.not_isNameChar) (List.cons.inj h).2
      obtain ⟨heq, hrs⟩ := ih hsteps' hothers' hrest
      exact ⟨by rw [String.toList_inj.mp hword, heq], hrs⟩

end Steps

namespace Expr

/-- A property, or a call if there are arguments, and the members on the way from it. -/
def access (name : String) (arguments : Option (List Expr)) (steps : List String) : Expr :=
  steps.foldl .member (match arguments with
    | none => .property name
    | some es => .call name es)

def argumentsText : Option (List Expr) → List Char
  | none => []
  | some es => parenthesized (join [','] (es.map (text .plain)))

theorem isAccess_foldl_member {e : Expr} (h : e.isAccess = true) (steps : List String) :
    (steps.foldl .member e).isAccess = true := by
  induction steps generalizing e with
  | nil => exact h
  | cons name steps ih => exact ih rfl

theorem operand_foldl_member {e : Expr} (h : e.isAccess = true) (steps : List String) :
    operand .plain (steps.foldl .member e) = e.operand .plain ++ stepsText steps := by
  induction steps generalizing e with
  | nil => exact (List.append_nil _).symm
  | cons name steps ih =>
    rw [List.foldl_cons, ih rfl, operand_member h, stepsText_cons, List.append_assoc,
      List.cons_append]

theorem operand_access (name : String) (arguments : Option (List Expr)) (steps : List String) :
    operand .plain (access name arguments steps) =
      name.toList ++ (argumentsText arguments ++ stepsText steps) := by
  cases arguments with
  | none => exact operand_foldl_member rfl steps
  | some es =>
    have h := operand_foldl_member (e := .call name es) rfl steps
    rw [operand_call, List.append_assoc] at h
    exact h

/-- Every access of a filter is one by a name, perhaps arguments, and members. -/
theorem Filterable.exists_access {e : Expr} (he : e.Filterable) (h : e.isAccess = true) :
    ∃ name arguments steps, e = access name arguments steps ∧ isName name = true ∧
      (∀ es ∈ arguments, ∀ a ∈ es, Filterable a) ∧ ∀ step ∈ steps, isName step = true := by
  induction he with
  | @property name hname => exact ⟨name, none, [], rfl, hname, by simp, by simp⟩
  | @call function arguments hname harguments _ =>
    exact ⟨function, some arguments, [], rfl, hname, by simpa using harguments, by simp⟩
  | @member parent step hparent _ hstep ih =>
    obtain ⟨name, arguments, steps, rfl, hname, harguments, hsteps⟩ := ih hparent
    refine ⟨name, arguments, steps ++ [step], ?_, hname, harguments, ?_⟩
    · unfold access
      rw [List.foldl_append]
      rfl
    · exact List.forall_mem_append.mpr ⟨hsteps, List.forall_mem_singleton.mpr hstep⟩
  | literal | binary | unary => cases h

end Expr

section Parts

theorem goesOn_argumentsText {next : Char → Bool} (hopen : next '(' = true)
    (arguments : Option (List Expr)) {rest : List Char} (h : GoesOn next rest) :
    GoesOn next (Expr.argumentsText arguments ++ rest) := by
  cases arguments with
  | none => exact h
  | some es => exact goesOn_cons.mpr hopen

/-- A name does not go on in its arguments, in the members behind it or in what ends an operand. -/
theorem goesOn_afterName (arguments : Option (List Expr)) (steps : List String)
    {rest : List Char} (h : GoesOn (endsOperand endsFilter) rest) :
    GoesOn (!isNameChar ·) (Expr.argumentsText arguments ++ (stepsText steps ++ rest)) :=
  goesOn_argumentsText rfl arguments (goesOn_stepsText rfl steps h.endsWord.not_isNameChar)

theorem goesOn_afterArguments (steps : List String) {rest : List Char}
    (h : GoesOn (endsOperand endsFilter) rest) : GoesOn (· != '(') (stepsText steps ++ rest) := by
  refine goesOn_stepsText rfl steps (h.mono fun c hc => ?_)
  rcases endsOperand_endsFilter hc with rfl | rfl | rfl <;> rfl

theorem argumentsText_append_inj {as bs : Option (List Expr)}
    (has : ∀ es ∈ as, ∀ a ∈ es, a.Filterable ∧ a.Separable .plain Expr.Filterable endsFilter)
    (hbs : ∀ es ∈ bs, ∀ b ∈ es, b.Filterable) {r s : List Char} (hr : GoesOn (· != '(') r)
    (hs : GoesOn (· != '(') s)
    (h : Expr.argumentsText as ++ r = Expr.argumentsText bs ++ s) : as = bs ∧ r = s := by
  cases as with
  | none =>
    cases bs with
    | none => exact ⟨rfl, h⟩
    | some es => exact absurd h (hr.ne_cons (by decide))
  | some es =>
    cases bs with
    | none => exact absurd h.symm (hs.ne_cons (by decide))
    | some fs =>
      have hcut : ∀ a ∈ es, CutsOff (Expr.text .plain) Expr.Filterable endsFilter a :=
        fun a ha => (has es rfl a ha).2.whole
      rw [Expr.argumentsText, Expr.argumentsText, parenthesized, parenthesized,
        List.append_assoc, List.append_assoc] at h
      obtain ⟨rfl, hrest⟩ := join_append_inj hcut (fun a ha => (has es rfl a ha).1) (hbs fs rfl)
        (fun _ => Expr.Filterable.text_append_ne) rfl rfl (List.cons.inj h).2
      exact ⟨rfl, hrest⟩

end Parts

namespace Expr

/-- Operands that are written alike, up to what follows them, are of one kind. -/
theorem describes_of_append_eq {e other : Expr} (he : e.Filterable) (hother : other.Filterable)
    {r s : List Char} (hr : GoesOn (endsOperand endsFilter) r)
    (hs : GoesOn (endsOperand endsFilter) s)
    (h : e.operand .plain ++ r = other.operand .plain ++ s) : e.opening.Describes other := by
  rw [← Opening.ofText_operand he hr.endsWord, h, Opening.ofText_operand hother hs.endsWord]
  exact other.describes_opening

theorem cutsOff_literal {l : Literal} (hl : l.isInexact = false) :
    CutsOff (operand .plain) Filterable (endsOperand endsFilter) (.literal l) := by
  intro other hother r s hr hs heq
  have hdescribes := describes_of_append_eq (.literal hl) hother hr hs heq
  cases l with
  | null =>
    obtain rfl : other = .literal .null := hdescribes
    exact ⟨rfl, List.append_cancel_left heq⟩
  | boolean a =>
    obtain ⟨b, rfl⟩ : ∃ b, other = .literal (.boolean b) := hdescribes
    have hchars : ∀ c : Bool, ∀ d ∈ boolText c, isNameChar d = true := by
      intro c
      apply List.all_eq_true.mp
      cases c <;> rfl
    obtain ⟨htext, hrest⟩ := word_append_inj (hchars a) (hchars b) hr.endsWord.not_isNameChar
      hs.endsWord.not_isNameChar heq
    have hbool : a = b := by
      cases a <;> cases b <;> first | rfl | cases htext
    exact ⟨by rw [hbool], hrest⟩
  | int64 m =>
    obtain ⟨n, rfl⟩ : ∃ n, other = .literal (.int64 n) := hdescribes
    obtain ⟨rfl, hrest⟩ := int64Text_append_inj hr.endsWord.not_isDigit hs.endsWord.not_isDigit heq
    exact ⟨rfl, hrest⟩
  | string t =>
    obtain ⟨u, rfl⟩ : ∃ u, other = .literal (.string u) := hdescribes
    obtain ⟨htext, hrest⟩ :=
      quotedString_append_inj hr.endsWord.not_quote hs.endsWord.not_quote heq
    exact ⟨by rw [String.toList_inj.mp htext], hrest⟩
  | double | decimal => cases hl

theorem cutsOff_unary {op : UnaryOp} {e : Expr} (h : Filterable (.unary op e))
    (he : CutsOff (operand .plain) Filterable (endsOperand endsFilter) e) :
    CutsOff (operand .plain) Filterable (endsOperand endsFilter) (.unary op e) := by
  intro other hother r s hr hs heq
  have hdescribes := describes_of_append_eq h hother hr hs heq
  obtain ⟨e', rfl⟩ : ∃ e', other = .unary op e' := by cases op <;> exact hdescribes
  have he' : e'.Filterable := by cases hother with | unary _ he' => exact he'
  rw [operand_unary, operand_unary, List.append_assoc, List.append_assoc] at heq
  obtain ⟨rfl, hrest⟩ := he e' he' r s hr hs (List.append_cancel_left heq)
  exact ⟨rfl, hrest⟩

/-- An access is cut at its name, its arguments and its members in turn. -/
theorem cutsOff_access {name : String} {arguments : Option (List Expr)} {steps : List String}
    (hname : isName name = true)
    (harguments : ∀ es ∈ arguments, ∀ a ∈ es,
      a.Filterable ∧ a.Separable .plain Filterable endsFilter)
    (hsteps : ∀ step ∈ steps, isName step = true) :
    CutsOff (operand .plain) Filterable (endsOperand endsFilter) (access name arguments steps) := by
  intro other hother r s hr hs heq
  have hword := goesOn_afterName arguments steps hr
  rw [operand_access, List.append_assoc, List.append_assoc] at heq
  -- The other operand opens with a name as well, so it is an access too.
  have hopening : other.opening = .name := by
    rw [← Opening.ofText_operand hother hs.endsWord, ← heq, Opening.ofText_name hname hword]
  have haccess : other.isAccess = true := by
    have hdescribes := other.describes_opening
    rwa [hopening] at hdescribes
  obtain ⟨name', arguments', steps', rfl, hname', harguments', hsteps'⟩ :=
    hother.exists_access haccess
  rw [operand_access, List.append_assoc, List.append_assoc] at heq
  obtain ⟨htext, hafter⟩ := word_append_inj (isName_iff.mp hname).2.1 (isName_iff.mp hname').2.1
    hword (goesOn_afterName arguments' steps' hs) heq
  obtain ⟨rfl, hmembers⟩ := argumentsText_append_inj harguments harguments'
    (goesOn_afterArguments steps hr) (goesOn_afterArguments steps' hs) hafter
  obtain ⟨rfl, hrest⟩ := stepsText_append_inj hsteps hsteps' hr hs hmembers
  exact ⟨by rw [String.toList_inj.mp htext], hrest⟩

/-- Every expression of a filter can be cut off. Members grow at the far end of an access, so the
induction carries those that are still to come. -/
theorem Filterable.separable_members {e : Expr} (he : e.Filterable) (steps : List String)
    (hsteps : ∀ step ∈ steps, isName step = true) (hnil : e.isAccess = false → steps = []) :
    Separable .plain Filterable endsFilter (steps.foldl .member e) := by
  induction he generalizing steps with
  | literal hl =>
    obtain rfl := hnil rfl
    exact filterOperations.separable_of_operand rfl (cutsOff_literal hl)
  | @property name hname =>
    have hcut := @cutsOff_access name none steps hname (by simp) hsteps
    have haccess := isAccess_foldl_member (e := .property name) rfl steps
    exact filterOperations.separable_of_operand (isBinary_of_isAccess haccess) hcut
  | @member parent name hparent _ hname ih =>
    refine ih (name :: steps) (List.forall_mem_cons.mpr ⟨hname, hsteps⟩) fun h => ?_
    rw [hparent] at h
    cases h
  | binary _ _ ihleft ihright =>
    obtain rfl := hnil rfl
    exact filterOperations.separable_binary (ihleft [] (by simp) fun _ => rfl)
      (ihright [] (by simp) fun _ => rfl)
  | unary hint hoperand ih =>
    obtain rfl := hnil rfl
    have hcut := cutsOff_unary (.unary hint hoperand) (ih [] (by simp) fun _ => rfl).operand
    exact filterOperations.separable_of_operand rfl hcut
  | @call function arguments hname harguments ih =>
    have hseparable : ∀ es ∈ some arguments, ∀ a ∈ es,
        a.Filterable ∧ a.Separable .plain Filterable endsFilter := by
      intro es hes a ha
      obtain rfl := Option.some.inj hes
      exact ⟨harguments a ha, ih a ha [] (by simp) fun _ => rfl⟩
    have hcut := cutsOff_access hname hseparable hsteps
    have haccess := isAccess_foldl_member (e := .call function arguments) rfl steps
    exact filterOperations.separable_of_operand (isBinary_of_isAccess haccess) hcut

theorem Filterable.separable {e : Expr} (he : e.Filterable) :
    e.Separable .plain Filterable endsFilter :=
  he.separable_members [] (by simp) fun _ => rfl

/-- Expressions of filters are written alike only if they are the same. -/
theorem text_eq_text_iff {e other : Expr} (he : e.Filterable) (hother : other.Filterable) :
    e.text .plain = other.text .plain ↔ e = other := by
  have hend : GoesOn endsFilter [] := fun c hc => by cases hc
  constructor
  · intro h
    exact (he.separable.whole other hother [] [] hend hend (by rw [h])).1
  · intro h
    rw [h]

/-- The condition `contains(Customer/Name,'it''s')`. -/
def nameHasQuote : Expr :=
  .call "contains" [.member (.property "Customer") "Name", .literal (.string "it's")]

/-- The condition `Amount gt -5`. -/
def amountExceedsDebt : Expr :=
  .binary .greaterThan (.property "Amount") (.literal (.int64 (-5)))

theorem filterable_nameHasQuote : Filterable nameHasQuote := by
  refine .call (by decide) (List.forall_mem_cons.mpr ⟨?_, List.forall_mem_singleton.mpr ?_⟩)
  · exact .member rfl (.property (by decide)) (by decide)
  · exact .literal rfl

theorem filterable_amountExceedsDebt : Filterable amountExceedsDebt :=
  .binary (.property (by decide)) (.literal rfl)

theorem filterable_not {e : Expr} (h : e.Filterable) : Filterable (.unary .not e) :=
  .unary (fun hop => by cases hop) h

/-- The parentheses around an operation tell a negation of both conditions from one of the first. -/
theorem text_eq_text_negations :
    Filterable (.unary .not (.binary .and nameHasQuote amountExceedsDebt)) ∧
      Filterable (.binary .and (.unary .not nameHasQuote) amountExceedsDebt) ∧
      (text .plain (.unary .not (.binary .and nameHasQuote amountExceedsDebt)) =
          text .plain (.binary .and (.unary .not nameHasQuote) amountExceedsDebt) ↔
        unary .not (.binary .and nameHasQuote amountExceedsDebt) =
          binary .and (.unary .not nameHasQuote) amountExceedsDebt) :=
  have hboth := filterable_not (.binary filterable_nameHasQuote filterable_amountExceedsDebt)
  have hfirst := .binary (filterable_not filterable_nameHasQuote) filterable_amountExceedsDebt
  ⟨hboth, hfirst, text_eq_text_iff hboth hfirst⟩

end Expr

end ExpandTree
