import ExpandTree.Term

/-!
Drafts: terms reopened for normalization. A draft lets its owner rebind path, select and expand;
each rebinding hands back what was bound before. The other options can only be read.
-/
namespace ExpandTree

structure Draft where
  term : Term

namespace Term

def reopen (t : Term) : Draft := ⟨t⟩

end Term

namespace Draft

def rebindPath (d : Draft) (path : Path) : Path × Draft :=
  (d.term.path, ⟨{ d.term with path }⟩)

def rebindSelect (d : Draft) (select : Option Select) : Option Select × Draft :=
  (d.term.select, ⟨{ d.term with select }⟩)

def rebindExpand (d : Draft) (expand : Option Clause) : Option Clause × Draft :=
  (d.term.expand, ⟨{ d.term with expand }⟩)

def freeze (d : Draft) : Term := d.term

theorem freeze_reopen (t : Term) : t.reopen.freeze = t := rfl

theorem reopen_freeze (d : Draft) : d.freeze.reopen = d := rfl

/-- Putting back what a rebinding handed out undoes it. -/
theorem rebindPath_undo (d : Draft) (path : Path) :
    (d.rebindPath path).2.rebindPath (d.rebindPath path).1 = (path, d) := by
  obtain ⟨⟨_, _, _, _⟩⟩ := d
  rfl

theorem rebindSelect_undo (d : Draft) (select : Option Select) :
    (d.rebindSelect select).2.rebindSelect (d.rebindSelect select).1 = (select, d) := by
  obtain ⟨⟨_, _, _, _⟩⟩ := d
  rfl

theorem rebindExpand_undo (d : Draft) (expand : Option Clause) :
    (d.rebindExpand expand).2.rebindExpand (d.rebindExpand expand).1 = (expand, d) := by
  obtain ⟨⟨_, _, _, _⟩⟩ := d
  rfl

end Draft

end ExpandTree
