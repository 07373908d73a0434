import ExpandTree.Draft
import ExpandTree.Proofs.Inversion

/-!
Runs of drafts. A draft is rebound any number of times, and may be frozen and reopened in between.
No child gets lost on the way and none is handed out twice: of each field, the children that the
rebindings hand back and the one that is bound in the end are the first one and those supplied, in
order. Nothing else changes in the term.
-/
namespace ExpandTree

/-- The fields of a term that a draft can bind anew. -/
inductive ChildField where
  | path
  | select
  | expand
  deriving DecidableEq

/-- What is bound to such a field. -/
inductive Child where
  | path (path : Path)
  | select (select : Option Select)
  | expand (expand : Option Clause)

def Child.field : Child → ChildField
  | .path _ => .path
  | .select _ => .select
  | .expand _ => .expand

def Term.child (t : Term) : ChildField → Child
  | .path => .path t.path
  | .select => .select t.select
  | .expand => .expand t.expand

/-- What may be done to a draft. -/
inductive DraftStep where
  | rebind (child : Child)
  | freezeReopen

/-- The child that a step supplies. -/
def DraftStep.child? : DraftStep → Option Child
  | .rebind child => some child
  | .freezeReopen => none

/-- The children of one field. -/
def childrenOf (field : ChildField) (children : List Child) : List Child :=
  children.filter fun child => child.field = field

theorem childrenOf_append (field : ChildField) (children more : List Child) :
    childrenOf field (children ++ more) = childrenOf field children ++ childrenOf field more :=
  List.filter_append ..

namespace Draft

/-- Binds a child to its field and hands back the one from before. -/
def rebind (child : Child) (d : Draft) : Child × Draft :=
  match child with
  | .path path => (d.rebindPath path).map .path id
  | .select select => (d.rebindSelect select).map .select id
  | .expand expand => (d.rebindExpand expand).map .expand id

/-- The children that a step hands back, and the draft after it. -/
def step (d : Draft) : DraftStep → List Child × Draft
  | .rebind child => (d.rebind child).map (fun previous => [previous]) id
  | .freezeReopen => ([], d.freeze.reopen)

/-- The children that the steps hand back one after the other, and the draft after them. -/
def run (d : Draft) : List DraftStep → List Child × Draft
  | [] => ([], d)
  | s :: rest => ((run (d.step s).2 rest).map ((d.step s).1 ++ ·) id)

section Account

variable (d : Draft) (field : ChildField)

theorem step_children (s : DraftStep) :
    childrenOf field (d.step s).1 ++ [(d.step s).2.freeze.child field] =
      d.freeze.child field :: childrenOf field s.child?.toList := by
  cases s with
  | rebind child => cases child <;> cases field <;> rfl
  | freezeReopen => rfl

theorem step_modifiers (s : DraftStep) : (d.step s).2.freeze.modifiers = d.freeze.modifiers := by
  cases s with
  | rebind child => cases child <;> rfl
  | freezeReopen => rfl

/-- What a step hands back is what it takes the place of, so the account of a run goes on with the
child that the step has bound. -/
theorem run_children (steps : List DraftStep) :
    childrenOf field (d.run steps).1 ++ [(d.run steps).2.freeze.child field] =
      d.freeze.child field :: childrenOf field (steps.filterMap DraftStep.child?) := by
  induction steps generalizing d with
  | nil => rfl
  | cons s rest ih =>
    have hsupplied : childrenOf field ((s :: rest).filterMap DraftStep.child?) =
        childrenOf field s.child?.toList ++
          childrenOf field (rest.filterMap DraftStep.child?) := by
      rw [← childrenOf_append]
      cases s <;> rfl
    calc childrenOf field (d.run (s :: rest)).1 ++ [(d.run (s :: rest)).2.freeze.child field]
        = childrenOf field (d.step s).1 ++ (childrenOf field ((d.step s).2.run rest).1 ++
            [((d.step s).2.run rest).2.freeze.child field]) := by
          rw [← List.append_assoc, ← childrenOf_append]
          rfl
      _ = (childrenOf field (d.step s).1 ++ [(d.step s).2.freeze.child field]) ++
            childrenOf field (rest.filterMap DraftStep.child?) := by
          rw [ih, List.append_assoc, List.singleton_append]
      _ = d.freeze.child field :: childrenOf field ((s :: rest).filterMap DraftStep.child?) := by
          rw [step_children, hsupplied, List.cons_append]

theorem run_modifiers (steps : List DraftStep) :
    (d.run steps).2.freeze.modifiers = d.freeze.modifiers := by
  induction steps generalizing d with
  | nil => rfl
  | cons s rest ih => exact (ih (d.step s).2).trans (d.step_modifiers s)

end Account

/-- Rebindings of different fields do not notice each other. -/
theorem rebind_comm {a b : Child} (h : a.field ≠ b.field) (d : Draft) :
    ((d.rebind a).2.rebind b).1 = (d.rebind b).1 ∧
      ((d.rebind a).2.rebind b).2 = ((d.rebind b).2.rebind a).2 := by
  cases a <;> cases b <;> first | exact absurd rfl h | exact ⟨rfl, rfl⟩

theorem eq_of_child_eq {d other : Draft}
    (h : ∀ field, d.freeze.child field = other.freeze.child field)
    (hmodifiers : d.freeze.modifiers = other.freeze.modifiers) : d = other := by
  obtain ⟨⟨path, m, select, expand⟩⟩ := d
  obtain ⟨⟨path', m', select', expand'⟩⟩ := other
  have hpath : path = path' := Child.path.inj (h .path)
  have hselect : select = select' := Child.select.inj (h .select)
  have hexpand : expand = expand' := Child.expand.inj (h .expand)
  rw [hpath, hselect, hexpand, show m = m' from hmodifiers]

/-- How rebindings of different fields are interleaved, and where the draft is frozen and reopened,
makes no difference to the children that a field hands back nor to the draft in the end. -/
theorem run_interleaved {steps others : List DraftStep}
    (h : ∀ field, childrenOf field (steps.filterMap DraftStep.child?) =
      childrenOf field (others.filterMap DraftStep.child?)) (d : Draft) :
    (∀ field, childrenOf field (d.run steps).1 = childrenOf field (d.run others).1) ∧
      (d.run steps).2 = (d.run others).2 := by
  have haccount : ∀ field, childrenOf field (d.run steps).1 = childrenOf field (d.run others).1 ∧
      [(d.run steps).2.freeze.child field] = [(d.run others).2.freeze.child field] := by
    intro field
    have happend : childrenOf field (d.run steps).1 ++ [(d.run steps).2.freeze.child field] =
        childrenOf field (d.run others).1 ++ [(d.run others).2.freeze.child field] := by
      rw [run_children, run_children, h]
    exact List.append_inj' happend rfl
  refine ⟨fun field => (haccount field).1, eq_of_child_eq (fun field => ?_) ?_⟩
  · exact List.singleton_inj.mp (haccount field).2
  · rw [run_modifiers, run_modifiers]

section Normalization

variable (t u : Term)

/-- Inversion takes each child out, leaves a placeholder and puts the child back turned around. -/
theorem run_inversion (placeholder : Path) :
    t.reopen.run ([.path placeholder, .path t.path.reversed,
        .select none, .select (t.select.map SelectItem.invertedAll),
        .expand none, .expand (t.expand.map Clause.inverted)].map .rebind) =
      ([.path t.path, .path placeholder, .select t.select, .select none, .expand t.expand,
        .expand none], t.inverted.reopen) := by
  rw [Term.inverted_eq, ← funext SelectItem.invertedAll_eq]
  rfl

/-- Merging leaves the path where it is and puts selects and nested clauses of both back. -/
theorem run_merge :
    t.reopen.run ([.select none, .select (joinOptions unite t.select u.select),
        .expand none, .expand (joinOptions List.append t.expand u.expand)].map .rebind) =
      ([.select t.select, .select none, .expand t.expand, .expand none], (t.merge u).reopen) :=
  rfl

theorem run_mapExpand (f : Clause → Clause) :
    t.reopen.run ([.expand none, .expand (t.expand.map f)].map .rebind) =
      ([.expand t.expand, .expand none], (t.mapExpand f).reopen) :=
  rfl

end Normalization

/-- Of each field, the children handed back during a run and the one bound after it are the first
one and those supplied, in order; the other options of the term stay as they are. Two rebindings of
different fields may change places. -/
theorem run_account (t : Term) (steps : List DraftStep) :
    (∀ field, childrenOf field (t.reopen.run steps).1 ++
        [(t.reopen.run steps).2.freeze.child field] =
      t.child field :: childrenOf field (steps.filterMap DraftStep.child?)) ∧
    (t.reopen.run steps).2.freeze.modifiers = t.modifiers ∧
    ∀ (d : Draft) (a b : Child), a.field ≠ b.field →
      ((d.rebind a).2.rebind b).1 = (d.rebind b).1 ∧
      (d.rebind a).1 = ((d.rebind b).2.rebind a).1 ∧
      ((d.rebind a).2.rebind b).2 = ((d.rebind b).2.rebind a).2 := by
  refine ⟨fun field => run_children _ field steps, run_modifiers _ steps, ?_⟩
  intro d a b h
  obtain ⟨hb, hdraft⟩ := rebind_comm h d
  obtain ⟨ha, -⟩ := rebind_comm h.symm d
  exact ⟨hb, ha.symm, hdraft⟩

theorem run_account_reboundOrders :
    let orders : Term := ⟨.last (.ofIdentifier "Orders"), { top := some 5 }, some [], none⟩
    let steps : List DraftStep :=
      [.rebind (.path (.last (.ofIdentifier "Lines"))), .rebind (.expand (some [orders])),
       .freezeReopen, .rebind (.select none), .rebind (.path orders.path)]
    Child.field (.select none) ≠ Child.field (.expand none) ∧
    (orders.reopen.run steps).2.freeze = { orders with select := none, expand := some [orders] } ∧
    (∀ field, childrenOf field (orders.reopen.run steps).1 ++
        [(orders.reopen.run steps).2.freeze.child field] =
      orders.child field :: childrenOf field (steps.filterMap DraftStep.child?)) ∧
    ((orders.reopen.rebind (.select none)).2.rebind (.expand none)).2 =
      ((orders.reopen.rebind (.expand none)).2.rebind (.select none)).2 := by
  intro orders steps
  obtain ⟨hchildren, -, hcomm⟩ := run_account orders steps
  have hfields : Child.field (.select none) ≠ Child.field (.expand none) := by decide
  exact ⟨hfields, rfl, hchildren, (hcomm orders.reopen _ _ hfields).2.2⟩

end Draft

end ExpandTree
