import Mathlib.Data.List.Nodup
import QuickFix.Syntax.Tree
import QuickFix.Proofs.ApplyEdits

/-!
# The shape of a well-formed syntax tree

A syntax tree is **well formed** when its nodes hang from the root (every other node names a
parent that comes earlier, and the parents' child lists say the same), each node's range lies
inside its parent's and inside the text, starts and stops on character boundaries, and the
children of a node are strictly apart, in order: each one stops before the next one starts.
Every tree the outline renderer builds has this shape (`QuickFix.Proofs.RenderedTree`), since it
always writes some text between two siblings.

Main statements: the nodes below a node are the ones that have it as an ancestor
(`WellFormed.mem_subtree_iff`), each node occurs once below the root (`WellFormed.nodup_subtree`,
`WellFormed.mem_subtree_root`), and two nodes neither of which is below the other are strictly
apart in the text (`WellFormed.separated`).
-/

namespace QuickFix

namespace SyntaxTree

/-- The shape of a tree that describes its text: a rooted tree whose ranges nest, whose siblings
are strictly apart and in order, and whose offsets are character boundaries of the text. -/
structure WellFormed (t : SyntaxTree) : Prop where
  root_mem : t.contains root
  parent_root : t.parent root = none
  parent_lt : ∀ n, t.contains n → n ≠ root → ∃ p, t.parent n = some p ∧ p.idx < n.idx
  mem_children : ∀ p c, c ∈ t.children p ↔ t.contains c ∧ t.parent c = some p
  start_le_stop : ∀ n, (t.range n).start ≤ (t.range n).stop
  stop_le_size : ∀ n, (t.range n).stop ≤ Text.byteSize t.text.toList
  covers : ∀ n p, t.contains n → t.parent n = some p → (t.range p).covers (t.range n) = true
  siblings_apart : ∀ p, (t.children p).Pairwise fun a b => (t.range a).stop < (t.range b).start
  boundary : ∀ n, IsCharBoundary t.text.toList (t.range n).start ∧
    IsCharBoundary t.text.toList (t.range n).stop

/-- Of two different members of a list that is ordered pairwise, one comes first. -/
theorem pairwise_rel_or_rel {α : Type} {R : α → α → Prop} {l : List α} {a b : α}
    (hl : l.Pairwise R) (ha : a ∈ l) (hb : b ∈ l) (hab : a ≠ b) : R a b ∨ R b a := by
  induction l with
  | nil => cases ha
  | cons x l ih =>
    rw [List.pairwise_cons] at hl
    rcases List.mem_cons.1 ha with rfl | ha'
    · rcases List.mem_cons.1 hb with rfl | hb'
      · exact absurd rfl hab
      · exact .inl (hl.1 b hb')
    · rcases List.mem_cons.1 hb with rfl | hb'
      · exact .inr (hl.1 a ha')
      · exact ih hl.2 ha' hb'

/-- An ancestor comes before the node: the walk up stops at a parent that does not. -/
theorem idx_lt_of_mem_ancestors {t : SyntaxTree} {n a : NodeId} (ha : a ∈ t.ancestors n) :
    a.idx < n.idx := by
  induction hk : n.idx using Nat.strong_induction_on generalizing n with
  | _ k ih =>
    rw [ancestors] at ha
    split at ha
    · rename_i p _
      split at ha
      · rename_i hlt
        rcases List.mem_cons.1 ha with rfl | ha
        · exact hk ▸ hlt
        · exact Nat.lt_trans (ih p.idx (hk ▸ hlt) ha rfl) (hk ▸ hlt)
      · cases ha
    · cases ha

namespace WellFormed

variable {t : SyntaxTree} (h : t.WellFormed)
include h

/-- A child comes after its parent and is a node of the tree. -/
theorem lt_of_mem_children {p c : NodeId} (hc : c ∈ t.children p) :
    p.idx < c.idx ∧ t.contains c := by
  obtain ⟨hcm, hpar⟩ := (h.mem_children p c).1 hc
  have hne : c ≠ root := by
    rintro rfl
    rw [h.parent_root] at hpar
    cases hpar
  obtain ⟨p', hp', hlt⟩ := h.parent_lt c hcm hne
  rw [hpar] at hp'
  cases hp'
  exact ⟨hlt, hcm⟩

/-- The subtree of a node is the node followed by the subtrees of its children. -/
theorem subtree_eq (n : NodeId) : t.subtree n = n :: (t.children n).flatMap t.subtree := by
  rw [subtree]
  congr 1
  conv_rhs => rw [← List.attach_map_subtype_val (t.children n), List.flatMap_map]
  refine List.flatMap_congr fun ⟨c, hc⟩ _ => ?_
  obtain ⟨hlt, hcm⟩ := h.lt_of_mem_children hc
  simp only [contains, decide_eq_true_eq] at hcm
  simp [hlt, hcm]

theorem mem_subtree_self (n : NodeId) : n ∈ t.subtree n := by
  rw [h.subtree_eq]
  exact List.mem_cons_self

/-- The nodes below a node: the node itself, or a node below one of its children. -/
theorem mem_subtree {n m : NodeId} :
    m ∈ t.subtree n ↔ m = n ∨ ∃ c ∈ t.children n, m ∈ t.subtree c := by
  rw [h.subtree_eq, List.mem_cons, List.mem_flatMap]

/-- What holds of a node whenever it holds of the node's children holds of every node: the
children come later, so the recursion ends. -/
theorem induction {motive : NodeId → Prop}
    (step : ∀ n, (∀ c ∈ t.children n, motive c) → motive n) (n : NodeId) : motive n := by
  induction hk : t.nodes.size - n.idx using Nat.strong_induction_on generalizing n with
  | _ k ih =>
    refine step n fun c hc => ih (t.nodes.size - c.idx) ?_ c rfl
    obtain ⟨hlt, hcm⟩ := h.lt_of_mem_children hc
    simp only [contains, decide_eq_true_eq] at hcm
    omega

theorem mem_subtree_trans {n m x : NodeId} (hm : m ∈ t.subtree n) (hx : x ∈ t.subtree m) :
    x ∈ t.subtree n := by
  induction n using h.induction with
  | step n ih =>
    rcases (h.mem_subtree).1 hm with rfl | ⟨c, hc, hm⟩
    · exact hx
    · exact (h.mem_subtree).2 (.inr ⟨c, hc, ih c hc hm⟩)

theorem mem_subtree_of_mem_children {n c : NodeId} (hc : c ∈ t.children n) :
    c ∈ t.subtree n :=
  (h.mem_subtree).2 (.inr ⟨c, hc, h.mem_subtree_self c⟩)

/-- A node below another comes no earlier than it. -/
theorem idx_le_of_mem_subtree {n m : NodeId} (hm : m ∈ t.subtree n) : n.idx ≤ m.idx := by
  induction n using h.induction with
  | step n ih =>
    rcases (h.mem_subtree).1 hm with rfl | ⟨c, hc, hm⟩
    · exact Nat.le_refl _
    · exact Nat.le_of_lt (Nat.lt_of_lt_of_le (h.lt_of_mem_children hc).1 (ih c hc hm))

theorem contains_of_mem_subtree {n m : NodeId} (hn : t.contains n) (hm : m ∈ t.subtree n) :
    t.contains m := by
  induction n using h.induction with
  | step n ih =>
    rcases (h.mem_subtree).1 hm with rfl | ⟨c, hc, hm⟩
    · exact hn
    · exact ih c hc (h.lt_of_mem_children hc).2 hm

/-- A node's range covers the range of every node below it. -/
theorem covers_of_mem_subtree {n m : NodeId} (hm : m ∈ t.subtree n) :
    (t.range n).start ≤ (t.range m).start ∧ (t.range m).stop ≤ (t.range n).stop := by
  induction n using h.induction with
  | step n ih =>
    rcases (h.mem_subtree).1 hm with rfl | ⟨c, hc, hm⟩
    · exact ⟨Nat.le_refl _, Nat.le_refl _⟩
    · obtain ⟨hcm, hpar⟩ := (h.mem_children n c).1 hc
      have hcov := h.covers c n hcm hpar
      simp only [Range.covers, Bool.and_eq_true, decide_eq_true_eq] at hcov
      have := ih c hc hm
      omega

/-! ### Ancestors and subtrees -/

/-- A node other than the root has its parent, and the parent's ancestors, as ancestors. -/
theorem ancestors_eq {n : NodeId} (hn : t.contains n) (hne : n ≠ root) :
    ∃ p, t.parent n = some p ∧ t.children p ≠ [] ∧ n ∈ t.children p ∧
      t.ancestors n = p :: t.ancestors p := by
  obtain ⟨p, hp, hlt⟩ := h.parent_lt n hn hne
  have hmem : n ∈ t.children p := (h.mem_children p n).2 ⟨hn, hp⟩
  refine ⟨p, hp, List.ne_nil_of_mem hmem, hmem, ?_⟩
  rw [ancestors, hp]
  simp [hlt]

theorem contains_of_mem_children_parent {n p : NodeId} (hn : t.contains n)
    (hp : t.parent n = some p) : t.contains p := by
  have hne : n ≠ root := by
    rintro rfl
    rw [h.parent_root] at hp
    cases hp
  obtain ⟨p', hp', hlt⟩ := h.parent_lt n hn hne
  rw [hp] at hp'
  cases hp'
  simp only [contains, decide_eq_true_eq] at hn ⊢
  omega

/-- The root is below nothing but itself, and every node of the tree is below the root. -/
theorem mem_subtree_root {m : NodeId} (hm : t.contains m) : m ∈ t.subtree root := by
  induction hk : m.idx using Nat.strong_induction_on generalizing m with
  | _ k ih =>
    by_cases hr : m = root
    · subst hr
      exact h.mem_subtree_self root
    · obtain ⟨p, hp, -, hmem, -⟩ := h.ancestors_eq hm hr
      obtain ⟨hlt, -⟩ := h.lt_of_mem_children hmem
      have hpm := h.contains_of_mem_children_parent hm hp
      exact h.mem_subtree_trans (ih p.idx (hk ▸ hlt) hpm rfl) (h.mem_subtree_of_mem_children hmem)

/-- The ancestors of a node are closed under taking parents. -/
theorem parent_mem_ancestors {m x y : NodeId} (hm : t.contains m) (hx : x ∈ t.ancestors m)
    (hy : t.parent x = some y) : y ∈ t.ancestors m := by
  induction hk : m.idx using Nat.strong_induction_on generalizing m with
  | _ k ih =>
    by_cases hr : m = root
    · subst hr
      rw [ancestors, h.parent_root] at hx
      cases hx
    · obtain ⟨p, hp, -, hmem, hanc⟩ := h.ancestors_eq hm hr
      have hpm := h.contains_of_mem_children_parent hm hp
      rw [hanc] at hx ⊢
      rcases List.mem_cons.1 hx with rfl | hx
      · -- the parent of `m` has a parent, so it is not the root
        have hxr : x ≠ root := by
          rintro rfl
          rw [h.parent_root] at hy
          cases hy
        obtain ⟨q, hq, -, -, hancx⟩ := h.ancestors_eq hpm hxr
        rw [hy] at hq
        cases hq
        rw [hancx]
        exact List.mem_cons_of_mem _ List.mem_cons_self
      · exact List.mem_cons_of_mem _ (ih p.idx (hk ▸ (h.lt_of_mem_children hmem).1) hpm hx rfl)

theorem mem_ancestors_of_mem_subtree {n m : NodeId} (hm : t.contains m)
    (hmn : m ∈ t.subtree n) (hne : m ≠ n) : n ∈ t.ancestors m := by
  induction n using h.induction with
  | step n ih =>
    rcases (h.mem_subtree).1 hmn with rfl | ⟨c, hc, hmc⟩
    · exact absurd rfl hne
    · obtain ⟨hcm, hpar⟩ := (h.mem_children n c).1 hc
      by_cases hmc' : m = c
      · subst hmc'
        have hr : m ≠ root := by
          rintro rfl
          rw [h.parent_root] at hpar
          cases hpar
        obtain ⟨p, hp, -, -, hanc⟩ := h.ancestors_eq hm hr
        rw [hpar] at hp
        cases hp
        rw [hanc]
        exact List.mem_cons_self
      · exact h.parent_mem_ancestors hm (ih c hc hmc hmc') hpar

theorem mem_subtree_of_mem_ancestors {n m : NodeId} (hm : t.contains m)
    (hn : n ∈ t.ancestors m) : m ∈ t.subtree n := by
  induction hk : m.idx using Nat.strong_induction_on generalizing m with
  | _ k ih =>
    by_cases hr : m = root
    · subst hr
      rw [ancestors, h.parent_root] at hn
      cases hn
    · obtain ⟨p, hp, -, hmem, hanc⟩ := h.ancestors_eq hm hr
      have hpm := h.contains_of_mem_children_parent hm hp
      rw [hanc] at hn
      rcases List.mem_cons.1 hn with rfl | hn
      · exact h.mem_subtree_of_mem_children hmem
      · exact h.mem_subtree_trans (ih p.idx (hk ▸ (h.lt_of_mem_children hmem).1) hpm hn rfl)
          (h.mem_subtree_of_mem_children hmem)

/-- **Subtrees are ancestors read downwards.** For a node `m` of the tree, `m` is below `n`
exactly when it is `n` or has `n` among its ancestors. -/
theorem mem_subtree_iff {n m : NodeId} (hm : t.contains m) :
    m ∈ t.subtree n ↔ m = n ∨ n ∈ t.ancestors m := by
  constructor
  · intro hmn
    by_cases hne : m = n
    · exact .inl hne
    · exact .inr (h.mem_ancestors_of_mem_subtree hm hmn hne)
  · rintro (rfl | hn)
    · exact h.mem_subtree_self m
    · exact h.mem_subtree_of_mem_ancestors hm hn

/-! ### Nodes apart -/

/-- Two nodes below a common node, neither of them below the other, are strictly apart: they lie
below two different children, which are. -/
theorem separated_of_mem_subtree {z x y : NodeId} (hx : x ∈ t.subtree z) (hy : y ∈ t.subtree z)
    (hxy : x ∉ t.subtree y) (hyx : y ∉ t.subtree x) :
    (t.range x).stop < (t.range y).start ∨ (t.range y).stop < (t.range x).start := by
  induction z using h.induction with
  | step z ih =>
    rcases (h.mem_subtree).1 hx with rfl | ⟨cx, hcx, hx'⟩
    · exact absurd hy hyx
    rcases (h.mem_subtree).1 hy with rfl | ⟨cy, hcy, hy'⟩
    · exact absurd hx hxy
    by_cases hc : cx = cy
    · subst hc
      exact ih cx hcx hx' hy'
    · have hx1 := h.covers_of_mem_subtree hx'
      have hy1 := h.covers_of_mem_subtree hy'
      rcases pairwise_rel_or_rel (h.siblings_apart z) hcx hcy hc with hlt | hlt
      · left
        omega
      · right
        omega

/-- **Nodes apart in the tree are apart in the text.** Two nodes of the tree neither of which is
below the other are strictly apart: one stops before the other starts. -/
theorem separated {x y : NodeId} (hx : t.contains x) (hy : t.contains y)
    (hxy : x ∉ t.subtree y) (hyx : y ∉ t.subtree x) :
    (t.range x).stop < (t.range y).start ∨ (t.range y).stop < (t.range x).start :=
  h.separated_of_mem_subtree (h.mem_subtree_root hx) (h.mem_subtree_root hy) hxy hyx

/-- Each node occurs once below a node. -/
theorem nodup_subtree (n : NodeId) : (t.subtree n).Nodup := by
  induction n using h.induction with
  | step n ih =>
    rw [h.subtree_eq, List.nodup_cons, List.nodup_flatMap]
    refine ⟨?_, ih, ?_⟩
    · -- the node comes before everything below its children
      intro hn
      obtain ⟨c, hc, hnc⟩ := List.mem_flatMap.1 hn
      have := h.idx_le_of_mem_subtree hnc
      have := (h.lt_of_mem_children hc).1
      omega
    · -- the subtrees of two children are as far apart as the children
      refine (h.siblings_apart n).imp fun {a b} hab => List.disjoint_left.2 fun {m} hma hmb => ?_
      have := h.covers_of_mem_subtree hma
      have := h.covers_of_mem_subtree hmb
      have := h.start_le_stop m
      omega

/-- A node is below at most one child of a node. -/
theorem eq_of_mem_subtree_children {n c c' m : NodeId} (hc : c ∈ t.children n)
    (hc' : c' ∈ t.children n) (hm : m ∈ t.subtree c) (hm' : m ∈ t.subtree c') : c = c' := by
  by_contra hne
  have := h.covers_of_mem_subtree hm
  have := h.covers_of_mem_subtree hm'
  have := h.start_le_stop m
  rcases pairwise_rel_or_rel (h.siblings_apart n) hc hc' hne with hlt | hlt <;> omega

/-- The ancestors of a node below `n` that are below `n` too: `n` itself, and those below the
child of `n` that holds the node. -/
theorem mem_subtree_of_mem_ancestors_of_mem_children {n c m a : NodeId} (hm : t.contains m)
    (hc : c ∈ t.children n) (hmc : m ∈ t.subtree c) (ha : a ∈ t.ancestors m)
    (han : a ∈ t.subtree n) : a = n ∨ a ∈ t.subtree c := by
  rcases (h.mem_subtree).1 han with rfl | ⟨c', hc', hac'⟩
  · exact .inl rfl
  · have hma := h.mem_subtree_of_mem_ancestors hm ha
    rw [h.eq_of_mem_subtree_children hc hc' hmc (h.mem_subtree_trans hac' hma)]
    exact .inr hac'

end WellFormed

/-! ### Checking the shape -/

/-- The checks of one node of the tree: its parent comes earlier, lists it among its children and
covers it (only the root has no parent); its children are nodes that name it as their parent
and are strictly apart, in order; its range starts no later than it stops, within the text, at
character boundaries. -/
def nodeShaped (t : SyntaxTree) (n : NodeId) : Bool :=
  (match t.parent n with
    | some p => decide (p.idx < n.idx) && (t.children p).contains n && (t.range p).covers (t.range n)
    | none => n.idx == 0) &&
  (t.children n).all (fun c => t.contains c && t.parent c == some n) &&
  decide ((t.children n).Pairwise fun a b => (t.range a).stop < (t.range b).start) &&
  decide ((t.range n).start ≤ (t.range n).stop) &&
  decide ((t.range n).stop ≤ Text.byteSize t.text.toList) &&
  Text.isBoundary t.text.toList (t.range n).start && Text.isBoundary t.text.toList (t.range n).stop

/-- Checks that a tree is well formed, node by node. -/
def checkShape (t : SyntaxTree) : Bool :=
  t.contains root && (t.parent root).isNone &&
  (List.range t.nodes.size).all fun i => t.nodeShaped ⟨i⟩

/-- A node outside the tree is the default node: no children, an empty range at offset `0`. -/
theorem node_of_not_contains {t : SyntaxTree} {n : NodeId} (hn : t.contains n = false) :
    t.node n = default := by
  simp only [contains, decide_eq_false_iff_not, Nat.not_lt] at hn
  simp [node, hn]

/-- A node of the tree reads as itself. -/
theorem get?_of_contains {t : SyntaxTree} {n : NodeId} (hn : t.contains n = true) :
    t.get? n = some (t.node n) := by
  simp only [contains, decide_eq_true_eq] at hn
  simp [get?, node, hn]

/-- The kind read from a node of the tree is the kind the tree gives it. -/
theorem kind_of_get? {t : SyntaxTree} {n : NodeId} {x : Node} (h : t.get? n = some x) :
    t.kind n = x.kind := by
  unfold get? at h
  simp [kind, node, h]

/-- A node outside the tree cannot be read. -/
theorem get?_of_not_contains {t : SyntaxTree} {n : NodeId} (hn : t.contains n = false) :
    t.get? n = none := by
  simp only [contains, decide_eq_false_iff_not, Nat.not_lt] at hn
  simp [get?, hn]

/-- **The check is sound**: a tree that passes `checkShape` is well formed. -/
theorem wellFormed_of_checkShape {t : SyntaxTree} (h : t.checkShape = true) : t.WellFormed := by
  simp only [checkShape, Bool.and_eq_true, List.all_eq_true, List.mem_range] at h
  obtain ⟨⟨hroot, hproot⟩, hall⟩ := h
  have hnode : ∀ n, t.contains n = true → t.nodeShaped n = true := fun n hn =>
    hall n.idx (by simpa [contains] using hn)
  -- a node outside the tree has no children and the empty range at `0`
  have hout : ∀ n, t.contains n = false → t.children n = [] ∧ t.range n = ⟨0, 0⟩ := fun n hn => by
    simp only [children, range, node_of_not_contains hn]
    exact ⟨rfl, rfl⟩
  have hzero : IsCharBoundary t.text.toList 0 := ⟨[], t.text.toList, rfl, rfl⟩
  refine ⟨hroot, Option.isNone_iff_eq_none.1 hproot, ?_, ?_, ?_, ?_, ?_, ?_, ?_⟩
  · -- parents come first
    intro n hn hne
    have := hnode n hn
    simp only [nodeShaped, Bool.and_eq_true] at this
    revert this
    cases hp : t.parent n with
    | some p => simp_all
    | none =>
      simp only [beq_iff_eq]
      intro h'
      exact absurd (by cases n; simp_all [root]) hne
  · -- the children of a node are the nodes that name it as parent
    intro p c
    constructor
    · intro hc
      cases hpm : t.contains p with
      | false => rw [(hout p hpm).1] at hc; cases hc
      | true =>
        have := hnode p hpm
        simp only [nodeShaped, Bool.and_eq_true, List.all_eq_true, beq_iff_eq] at this
        exact this.1.1.1.1.1.2 c hc
    · rintro ⟨hc, hpar⟩
      have := hnode c hc
      simp only [nodeShaped, hpar, Bool.and_eq_true, List.contains_iff_mem] at this
      exact this.1.1.1.1.1.1.1.2
  · intro n
    cases hn : t.contains n with
    | false => simp [(hout n hn).2]
    | true =>
      have := hnode n hn
      simp only [nodeShaped, Bool.and_eq_true, decide_eq_true_eq] at this
      exact this.1.1.1.2
  · intro n
    cases hn : t.contains n with
    | false => simp [(hout n hn).2]
    | true =>
      have := hnode n hn
      simp only [nodeShaped, Bool.and_eq_true, decide_eq_true_eq] at this
      exact this.1.1.2
  · intro n p hn hpar
    have := hnode n hn
    simp only [nodeShaped, hpar, Bool.and_eq_true] at this
    exact this.1.1.1.1.1.1.2
  · intro p
    cases hp : t.contains p with
    | false => simp [(hout p hp).1]
    | true =>
      have := hnode p hp
      simp only [nodeShaped, Bool.and_eq_true, decide_eq_true_eq] at this
      exact this.1.1.1.1.2
  · intro n
    cases hn : t.contains n with
    | false => simp [(hout n hn).2, hzero]
    | true =>
      have := hnode n hn
      simp only [nodeShaped, Bool.and_eq_true] at this
      exact ⟨(isBoundary_iff _ _).1 this.1.2, (isBoundary_iff _ _).1 this.2⟩

end SyntaxTree

end QuickFix
