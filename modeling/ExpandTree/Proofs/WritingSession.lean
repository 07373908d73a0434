import ExpandTree.Proofs.OptionLists
import ExpandTree.Writer

/-!
Writing sessions. Every piece leaves a session as it was: a search returns to the grammar from
before, and nothing else changes it. So what a session writes does not depend on what it has
written, and a tree is written as it is without a session. Below its search options stand operators
in upper case and NOT, everywhere else keywords, minus signs and not.
-/
namespace ExpandTree

open Text

/-- The words of the operators in the two grammars of a rendering. Operands may have parentheses. -/
structure Worded (text : Grammar → Expr → List Char) : Prop where
  binary : ∀ op left right, text .plain (.binary op left right) =
    operandText left (text .plain left) ++ ' ' :: op.keyword.toList ++
      ' ' :: operandText right (text .plain right)
  negate : ∀ e, text .plain (.unary .negate e) = '-' :: operandText e (text .plain e)
  not : ∀ e, text .plain (.unary .not e) = "not ".toList ++ operandText e (text .plain e)
  searchedBinary : ∀ op left right, text .search (.binary op left right) =
    operandText left (text .search left) ++ ' ' :: op.keyword.toList.map Char.toUpper ++
      ' ' :: operandText right (text .search right)
  searchedUnary : ∀ op e,
    text .search (.unary op e) = "NOT ".toList ++ operandText e (text .search e)

theorem Expr.worded_text : Worded text where
  binary _ _ _ := rfl
  negate _ := rfl
  not _ := rfl
  searchedBinary _ _ _ := rfl
  searchedUnary _ _ := rfl

/-- What stands behind the expression of an order item. -/
def Direction.ending (style : Style) : Direction → List Char
  | .descending => " desc".toList
  | .ascending => if style.explicitAscending then " asc".toList else []

theorem OrderItem.text_eq (style : Style) (item : OrderItem) :
    item.text style = item.expression.text .plain ++ item.direction.ending style := by
  obtain ⟨e, direction⟩ := item
  obtain ⟨explicit⟩ := style
  cases direction with
  | descending => rfl
  | ascending =>
    cases explicit with
    | true => rfl
    | false => exact (List.append_nil _).symm

/-- The grammars of the expressions in a term: a search has its own, and no other option. The terms
of a nested clause are written like any other. -/
structure Term.Grammars (style : Style) (t : Term) : Prop where
  options : t.text style = withOptions t.path (t.optionTexts style)
  filter : t.optionValue style .filter = t.modifiers.filter.map (Expr.text .plain)
  orderBy : t.optionValue style .orderBy = t.modifiers.orderBy.map fun items =>
    join [','] (items.map fun item =>
      item.expression.text .plain ++ item.direction.ending style)
  search : t.optionValue style .search = t.modifiers.search.map (Expr.text .search)
  compute : t.optionValue style .compute = t.modifiers.compute.map fun items =>
    join [','] (items.map fun c => c.expression.text .plain ++ " as ".toList ++ c.name.toList)
  apply : t.optionValue style .apply = t.modifiers.apply.map fun steps =>
    join ['/'] (steps.map (Expr.text .plain))
  expand : t.optionValue style .expand = t.expand.map fun terms =>
    join [','] (terms.map (Term.text style))

theorem Term.grammars (style : Style) (t : Term) : t.Grammars style where
  options := text_eq_withOptions t
  filter := rfl
  orderBy := by
    have htexts : orderByText style = fun items => join [','] (items.map fun item =>
        item.expression.text .plain ++ item.direction.ending style) := by
      funext items
      rw [orderByText, funext (OrderItem.text_eq style)]
    rw [optionValue, htexts]
  search := rfl
  compute := rfl
  apply := by
    have htexts : applyText = fun steps => join ['/'] (steps.map (Expr.text .plain)) := by
      funext steps
      rw [applyText, Expr.texts_eq_map]
    rw [optionValue, htexts]
  expand := by
    have htexts : clauseText style = fun terms => join [','] (terms.map (text style)) := by
      funext terms
      rw [clauseText, texts_eq_map]
    rw [optionValue, htexts]

namespace Writer

/-- A piece that leaves every session as it was. -/
def Steady {α : Type} (piece : StateM Writer α) : Prop := ∀ w, (piece.run w).2 = w

section Steady

variable {α β : Type}

theorem run_bind (p : StateM Writer α) (f : α → StateM Writer β) (w : Writer) :
    (p >>= f).run w = (f (p.run w).1).run (p.run w).2 := rfl

theorem Steady.pure (a : α) : Steady (pure a : StateM Writer α) := fun _ => rfl

theorem Steady.get : Steady (get : StateM Writer Writer) := fun _ => rfl

theorem Steady.bind {p : StateM Writer α} {f : α → StateM Writer β} (hp : Steady p)
    (hf : ∀ a, Steady (f a)) : Steady (p >>= f) := by
  intro w
  rw [run_bind, hp]
  exact hf _ w

theorem Steady.run_bind {p : StateM Writer α} (hp : Steady p) (f : α → StateM Writer β)
    (w : Writer) : (p >>= f).run w = (f (p.run w).1).run w := by
  rw [Writer.run_bind, hp]

theorem Steady.mapM {f : α → StateM Writer β} {as : List α} (h : ∀ a ∈ as, Steady (f a)) :
    Steady (as.mapM f) := by
  induction as with
  | nil => exact .pure []
  | cons a as ih =>
    obtain ⟨ha, has⟩ := List.forall_mem_cons.mp h
    rw [List.mapM_cons]
    exact .bind ha fun _ => .bind (ih has) fun _ => .pure _

/-- Steady pieces write, one after the other, what each of them writes on its own. -/
theorem run_mapM {f : α → StateM Writer β} {as : List α} (h : ∀ a ∈ as, Steady (f a))
    (w : Writer) : (as.mapM f).run w = (as.map fun a => ((f a).run w).1, w) := by
  induction as with
  | nil => rfl
  | cons a as ih =>
    obtain ⟨ha, has⟩ := List.forall_mem_cons.mp h
    rw [List.mapM_cons, ha.run_bind, Writer.run_bind, ih has]
    rfl

end Steady

section Expressions

theorem operatorWord_eq (w : Writer) (op : BinaryOp) :
    w.operatorWord op = binaryWord w.grammar op := by
  obtain ⟨style, grammar⟩ := w
  cases grammar <;> rfl

theorem signed_eq (w : Writer) (op : UnaryOp) (operand : List Char) :
    w.signed op operand = unaryLead w.grammar op ++ operand := by
  obtain ⟨style, grammar⟩ := w
  cases grammar <;> cases op <;> rfl

theorem exprs_eq_mapM (es : List Expr) : exprs es = es.mapM expr := by
  induction es with
  | nil => rfl
  | cons e rest ih => rw [exprs, ih, List.mapM_cons]

theorem run_exprs {es : List Expr} {w : Writer}
    (h : ∀ e ∈ es, (expr e).run w = (e.text w.grammar, w)) :
    (exprs es).run w = (Expr.texts w.grammar es, w) := by
  induction es with
  | nil => rfl
  | cons e rest ih =>
    obtain ⟨he, hrest⟩ := List.forall_mem_cons.mp h
    rw [exprs, run_bind, he, run_bind, ih hrest]
    rfl

theorem run_aggregations {items : List Aggregation} {w : Writer}
    (h : ∀ item ∈ items, (expr item.expression).run w = (item.expression.text w.grammar, w)) :
    (aggregations items).run w = (Expr.aggregationTexts w.grammar items, w) := by
  induction items with
  | nil => rfl
  | cons item rest ih =>
    obtain ⟨hitem, hrest⟩ := List.forall_mem_cons.mp h
    obtain ⟨e, method, name⟩ := item
    cases method with
    | count =>
      rw [aggregations, run_bind, ih hrest]
      rfl
    | sum | min | max | average | countDistinct =>
      simp only [aggregations, run_bind, hitem, ih hrest]
      rfl

/-- An expression is written in the grammar of the session, which stays as it is. -/
theorem run_expr (e : Expr) (w : Writer) : (expr e).run w = (e.text w.grammar, w) := by
  induction e using Expr.induction with
  | literal | property | star | search => rfl
  | member parent name ih =>
    rw [expr, run_bind, ih]
    rfl
  | binary op left right ihleft ihright =>
    rw [expr, run_bind, ihleft, run_bind, ihright, Steady.get.run_bind, operatorWord_eq]
    rfl
  | unary op operand ih =>
    rw [expr, run_bind, ih, Steady.get.run_bind, signed_eq]
    rfl
  | call function arguments ih =>
    rw [expr, run_bind, run_exprs ih]
    rfl
  | aggregate items ih =>
    rw [expr, run_bind, run_aggregations ih]
    rfl
  | groupBy properties ih =>
    rw [expr, run_bind, run_exprs ih]
    rfl
  | groupByThen properties child ih ihchild =>
    rw [expr, run_bind, run_exprs ih, run_bind, ihchild]
    rfl

/-- A search is written in the search grammar, whatever the grammar around it. -/
theorem run_search (e : Expr) (w : Writer) : (search e).run w = (e.text .search, w) := by
  have hsearch : (search e).run w =
      (((expr e).run { w with grammar := .search }).1,
        { ((expr e).run { w with grammar := .search }).2 with grammar := w.grammar }) := rfl
  rw [hsearch, run_expr]

theorem steady_expr (e : Expr) : Steady (expr e) := fun w => by rw [run_expr]

theorem steady_search (e : Expr) : Steady (search e) := fun w => by rw [run_search]

end Expressions

section Options

variable {α : Type}

theorem steady_orderItem (item : OrderItem) : Steady (orderItem item) :=
  .bind (steady_expr item.expression) fun _ => .bind .get fun _ => .pure _

theorem steady_orderBy (items : List OrderItem) : Steady (orderBy items) :=
  .bind (.mapM fun item _ => steady_orderItem item) fun _ => .pure _

theorem steady_computed (c : Computed) : Steady (computed c) :=
  .bind (steady_expr c.expression) fun _ => .pure _

theorem steady_compute (items : List Computed) : Steady (compute items) :=
  .bind (.mapM fun c _ => steady_computed c) fun _ => .pure _

theorem steady_apply (steps : List Expr) : Steady (apply steps) := by
  rw [apply, exprs_eq_mapM]
  exact .bind (.mapM fun e _ => steady_expr e) fun _ => .pure _

theorem run_orderItem (style : Style) (item : OrderItem) :
    (orderItem item).run { style } = (item.text style, { style }) := by
  obtain ⟨e, direction⟩ := item
  rw [orderItem, run_bind, run_expr, Steady.get.run_bind]
  cases direction <;> rfl

theorem run_orderBy (style : Style) (items : List OrderItem) :
    (orderBy items).run { style } = (orderByText style items, { style }) := by
  rw [orderBy, run_bind, run_mapM fun item _ => steady_orderItem item]
  simp only [run_orderItem]
  rfl

theorem run_computed (style : Style) (c : Computed) :
    (computed c).run { style } = (c.text, { style }) := by
  rw [computed, run_bind, run_expr]
  rfl

theorem run_compute (style : Style) (items : List Computed) :
    (compute items).run { style } = (computeText items, { style }) := by
  rw [compute, run_bind, run_mapM fun c _ => steady_computed c]
  simp only [run_computed]
  rfl

theorem run_apply (style : Style) (steps : List Expr) :
    (apply steps).run { style } = (applyText steps, { style }) := by
  rw [apply, run_bind, run_exprs fun e _ => run_expr e _]
  rfl

theorem filterMap_id_cons (o : Option α) (os : List (Option α)) :
    (o :: os).filterMap id = o.toList ++ os.filterMap id := by
  cases o <;> rfl

theorem steady_option {part : TermPart} {value : Option α} {write : α → Piece}
    (h : ∀ a, Steady (write a)) : Steady (option part value write) := by
  cases value with
  | none => exact .pure []
  | some a => exact .bind (h a) fun _ => .pure _

theorem run_option {part : TermPart} {value : Option α} {write : α → Piece}
    {text : α → List Char} {w : Writer} (h : ∀ a, (write a).run w = (text a, w)) :
    (option part value write).run w = ((part.optionText (value.map text)).toList, w) := by
  cases value with
  | none => rfl
  | some a =>
    rw [option, run_bind, h]
    rfl

theorem steady_options (m : Modifiers) (selected : Option Select) :
    Steady (options m selected) :=
  .bind (steady_option steady_expr) fun _ => .bind (steady_option steady_orderBy) fun _ =>
    .bind (steady_option fun _ => .pure _) fun _ => .bind (steady_option fun _ => .pure _) fun _ =>
    .bind (steady_option fun _ => .pure _) fun _ => .bind (steady_option fun _ => .pure _) fun _ =>
    .bind (steady_option steady_search) fun _ => .bind (steady_option fun _ => .pure _) fun _ =>
    .bind (steady_option steady_compute) fun _ => .bind (steady_option steady_apply) fun _ =>
    .pure _

/-- Outside of searches the options are written as they are without a session: the grammar is the
plain one again after a search. -/
theorem run_options (style : Style) (m : Modifiers) (selected : Option Select) :
    (options m selected).run { style } = (m.optionTexts style selected, { style }) := by
  have hfilter := @run_option _ .filter m.filter expr _ { style } fun e => run_expr e _
  have horderBy := @run_option _ .orderBy m.orderBy orderBy _ { style } (run_orderBy style)
  have htop := @run_option _ .top m.top (return int64Text ·) _ { style } fun _ => rfl
  have hskip := @run_option _ .skip m.skip (return int64Text ·) _ { style } fun _ => rfl
  have hcount := @run_option _ .count m.count (return boolText ·) _ { style } fun _ => rfl
  have hlevels := @run_option _ .levels m.levels (return ·.text) _ { style } fun _ => rfl
  have hsearch := @run_option _ .search m.search search _ { style } fun e => run_search e _
  have hselect := @run_option _ .select selected select _ { style } fun _ => rfl
  have hcompute := @run_option _ .compute m.compute compute _ { style } (run_compute style)
  have happly := @run_option _ .apply m.apply apply _ { style } (run_apply style)
  simp only [options, run_bind, hfilter, horderBy, htop, hskip, hcount, hlevels, hsearch, hselect,
    hcompute, happly]
  simp only [Modifiers.optionTexts, filterMap_id_cons, List.append_assoc, List.filterMap_nil,
    List.append_nil]
  rfl

end Options

section Trees

theorem terms_eq_mapM (ts : List Term) : terms ts = ts.mapM term := by
  induction ts with
  | nil => rfl
  | cons t rest ih => rw [terms, ih, List.mapM_cons]

theorem steady_term (t : Term) : Steady (term t) := by
  induction t using Term.induction with
  | term path m select expand ih =>
    cases expand with
    | none => exact .bind (steady_options m select) fun _ => .pure _
    | some nested =>
      rw [term, terms_eq_mapM]
      exact .bind (steady_options m select) fun _ =>
        .bind (.mapM (ih nested rfl)) fun _ => .pure _

theorem steady_clause (c : Clause) : Steady (clause c) := by
  rw [clause, terms_eq_mapM]
  exact .bind (.mapM fun t _ => steady_term t) fun _ => .pure _

theorem run_terms {style : Style} {ts : List Term}
    (h : ∀ t ∈ ts, (term t).run { style } = (t.text style, { style })) :
    (terms ts).run { style } = (Term.texts style ts, { style }) := by
  induction ts with
  | nil => rfl
  | cons t rest ih =>
    obtain ⟨ht, hrest⟩ := List.forall_mem_cons.mp h
    rw [terms, run_bind, ht, run_bind, ih hrest]
    rfl

theorem run_term (style : Style) (t : Term) :
    (term t).run { style } = (t.text style, { style }) := by
  induction t using Term.induction with
  | term path m select expand ih =>
    cases expand with
    | none =>
      rw [term, run_bind, run_options]
      rfl
    | some nested =>
      rw [term, run_bind, run_options, run_bind, run_terms (ih nested rfl)]
      rfl

theorem run_clause (style : Style) (c : Clause) :
    (clause c).run { style } = (clauseText style c, { style }) := by
  rw [clause, run_bind, run_terms fun t _ => run_term style t]
  rfl

end Trees

end Writer

/-- The text of a token by itself. -/
def Token.text (style : Style) : Token → List Char
  | .expr e => e.text .plain
  | .path p => p.text
  | .orderItem item => item.text style
  | .select s => selectText s
  | .selectItem item => item.text
  | .compute items => computeText items
  | .computed c => c.text
  | .clause c => clauseText style c
  | .term t => t.text style

namespace Writer

theorem steady_accept (token : Token) : Steady (token.accept visitor) := by
  cases token with
  | expr e => exact steady_expr e
  | orderItem item => exact steady_orderItem item
  | compute items => exact steady_compute items
  | computed c => exact steady_computed c
  | clause c => exact steady_clause c
  | term t => exact steady_term t
  | path | select | selectItem => exact .pure _

theorem run_accept (style : Style) (token : Token) :
    (token.accept visitor).run { style } = (token.text style, { style }) := by
  cases token with
  | expr e => exact run_expr e { style }
  | orderItem item => exact run_orderItem style item
  | compute items => exact run_compute style items
  | computed c => exact run_computed style c
  | clause c => exact run_clause style c
  | term t => exact run_term style t
  | path | select | selectItem => rfl

theorem steady_call (call : Call) : Steady call.piece := by
  cases call with
  | accept token => exact steady_accept token
  | search e => exact steady_search e

theorem worded_session (style : Style) :
    Worded fun grammar e => ((Call.accept (.expr e)).piece.run { style, grammar }).1 := by
  have htext : (fun grammar e => ((Call.accept (.expr e)).piece.run { style, grammar }).1) =
      Expr.text := by
    funext grammar e
    exact congrArg Prod.fst (run_expr e { style, grammar })
  rw [htext]
  exact Expr.worded_text

/-- No call changes a session, whatever its state. So each of a series of calls writes what it
writes in a fresh session of the same style: a token its text by itself, a search its text in the
search grammar, and a tree the text of the whole option. In the search grammar that is upper-case
operators and NOT, in the plain one keywords, minus signs and not; and of the expressions in a tree
those of the search options have the search grammar, all others the plain one. -/
theorem calls_are_independent :
    (∀ (call : Call) (w : Writer), (call.piece.run w).2 = w) ∧
      (∀ (style : Style) (calls : List Call),
        (calls.mapM Call.piece).run { style } =
          (calls.map fun call => (call.piece.run { style }).1, { style })) ∧
      (∀ (style : Style) (token : Token),
        ((Call.accept token).piece.run { style }).1 = token.text style) ∧
      (∀ (style : Style) (e : Expr), ((Call.search e).piece.run { style }).1 = e.text .search) ∧
      (∀ (style : Style) (clause : Clause),
        assigned .expand ((Call.accept (.clause clause)).piece.run { style }).1 =
          queryText style clause) ∧
      (∀ style : Style,
        Worded fun grammar e => ((Call.accept (.expr e)).piece.run { style, grammar }).1) ∧
      Worded Expr.text ∧
      (∀ (style : Style) (clause : Clause),
        queryText style clause = assigned .expand (join [','] (clause.map (Term.text style)))) ∧
      ∀ (style : Style) (t : Term), t.Grammars style := by
  refine ⟨steady_call, fun style calls => ?_, fun style token => ?_, fun style e => ?_,
    fun style clause => ?_, worded_session, Expr.worded_text, fun style clause => ?_,
    Term.grammars⟩
  · exact run_mapM (fun call _ => steady_call call) { style }
  · rw [Call.piece, run_accept]
  · rw [Call.piece, run_search]
  · rw [Call.piece, run_accept]
    rfl
  · rw [queryText, clauseText, Term.texts_eq_map]

example :
    ((Call.search (.binary .and (.search "a") (.unary .not (.search "b")))).piece.run {}).1 =
      "a AND NOT b".toList := by
  decide

end Writer

end ExpandTree
