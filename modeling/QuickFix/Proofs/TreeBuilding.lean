import Mathlib.Data.List.Nodup
import QuickFix.Syntax.Builder
import QuickFix.Proofs.TreeShape

/-!
# Trees built from calls

A `TreeBuilder` links each node it opens to the innermost open node: the new node names that node
as its parent and is appended to its children. Whatever the calls, the nodes stay **linked**: a
node's parent comes before it, and the children of a node are exactly the nodes that name it as
parent, in the order they were opened (`TreeBuilder.Inv`, kept by every call, `Inv.call`, and by
every sequence of calls, `Inv.run`). In a linked tree the nodes below a node are those that have
it on their line of parents (`SyntaxTree.Linked.mem_subtree_iff`), and the preorder visits no
node twice (`SyntaxTree.Linked.nodup_preorder`).

Main statement: a tree that `finish` accepts after any sequence of calls is linked, keeps its
ranges inside the text and inside their parents, and its preorder visits exactly the nodes whose
line of parents reaches the root (`TreeBuilder.finish_shape`). The root need not be the only node
without a parent: `finish` checks no such thing, and a node opened after the root is closed has
no parent and is never reached by the preorder (`TreeBuilder.finish_second_top_node`).
-/

namespace QuickFix

namespace SyntaxTree

/-- The nodes of the tree that name `p` as their parent, in the order of the tree. -/
def childrenNamed (t : SyntaxTree) (p : NodeId) : List NodeId :=
  (List.range t.size).filterMap fun i => if t.parent ⟨i⟩ = some p then some ⟨i⟩ else none

theorem mem_childrenNamed {t : SyntaxTree} {p c : NodeId} :
    c ∈ t.childrenNamed p ↔ t.contains c ∧ t.parent c = some p := by
  obtain ⟨i⟩ := c
  simp only [childrenNamed, List.mem_filterMap, List.mem_range, Option.ite_none_right_eq_some,
    Option.some.injEq, contains, size, decide_eq_true_eq]
  constructor
  · rintro ⟨j, hj, hp, hji⟩
    cases hji
    exact ⟨hj, hp⟩
  · rintro ⟨hi, hp⟩
    exact ⟨i, hi, hp, rfl⟩

theorem nodup_childrenNamed (t : SyntaxTree) (p : NodeId) : (t.childrenNamed p).Nodup := by
  refine List.nodup_range.filterMap fun a a' c ha ha' => ?_
  simp only [Option.mem_def, Option.ite_none_right_eq_some, Option.some.injEq] at ha ha'
  rw [← ha.2] at ha'
  exact (congrArg NodeId.idx ha'.2).symm

/-- A tree is **linked** when every node's parent comes before it and the children of a node are
the nodes that name it as their parent, each listed once. -/
structure Linked (t : SyntaxTree) : Prop where
  parent_lt : ∀ n p, t.parent n = some p → p.idx < n.idx
  mem_children : ∀ p c, c ∈ t.children p ↔ t.contains c ∧ t.parent c = some p
  nodup_children : ∀ p, (t.children p).Nodup

/-- The walk up from a node without a parent stops at once. -/
theorem ancestors_of_parent_eq_none {t : SyntaxTree} {n : NodeId} (h : t.parent n = none) :
    t.ancestors n = [] := by
  rw [ancestors, h]

/-- A node with a parent is a node of the tree: a missing node reads as the default one. -/
theorem contains_of_parent {t : SyntaxTree} {n p : NodeId} (hp : t.parent n = some p) :
    t.contains n := by
  unfold SyntaxTree.parent SyntaxTree.node at hp
  unfold SyntaxTree.contains
  by_contra hc
  rw [Array.getElem?_eq_none (by simpa using hc)] at hp
  cases hp

theorem contains_root_of_size_ne_zero {t : SyntaxTree} (hs : ¬t.nodes.size = 0) :
    t.contains root := by
  simpa [contains, root, Nat.pos_iff_ne_zero] using hs

namespace Linked

variable {t : SyntaxTree} (h : t.Linked)
include h

theorem lt_of_mem_children {p c : NodeId} (hc : c ∈ t.children p) :
    p.idx < c.idx ∧ t.contains c := by
  obtain ⟨hcm, hpar⟩ := (h.mem_children p c).1 hc
  exact ⟨h.parent_lt c p hpar, hcm⟩

/-- A node with a parent is a node of the tree. -/

theorem contains_parent {n p : NodeId} (hp : t.parent n = some p) : t.contains p := by
  have hn := contains_of_parent hp
  have hlt := h.parent_lt n p hp
  simp only [contains, decide_eq_true_eq] at hn ⊢
  omega

/-- The walk up from a node with a parent goes to the parent. -/
theorem ancestors_of_parent {n p : NodeId} (hp : t.parent n = some p) :
    t.ancestors n = p :: t.ancestors p := by
  rw [ancestors, hp]
  simp [h.parent_lt n p hp]

/-- The subtree of a node is the node followed by the subtrees of its children. -/
theorem subtree_eq (n : NodeId) : t.subtree n = n :: (t.children n).flatMap t.subtree := by
  rw [subtree]
  congr 1
  conv_rhs => rw [← List.attach_map_subtype_val (t.children n), List.flatMap_map]
  refine List.flatMap_congr fun c _ => ?_
  obtain ⟨hlt, hcm⟩ := h.lt_of_mem_children c.2
  simp only [contains, decide_eq_true_eq] at hcm
  simp [hlt, hcm]

/-- What holds of a node whenever it holds of the node's children holds of every node: the
children come later, so the recursion ends. -/
theorem induction {motive : NodeId → Prop}
    (step : ∀ n, (∀ c ∈ t.children n, motive c) → motive n) (n : NodeId) : motive n := by
  induction hk : t.nodes.size - n.idx using Nat.strongRecOn generalizing n with
  | ind k ih =>
    refine step n fun c hc => ih (t.nodes.size - c.idx) ?_ c rfl
    obtain ⟨hlt, hcm⟩ := h.lt_of_mem_children hc
    simp only [contains, decide_eq_true_eq] at hcm
    omega

theorem mem_subtree {n m : NodeId} :
    m ∈ t.subtree n ↔ m = n ∨ ∃ c ∈ t.children n, m ∈ t.subtree c := by
  rw [h.subtree_eq, List.mem_cons, List.mem_flatMap]

/-- A node below another comes no earlier than it. -/
theorem idx_le_of_mem_subtree {n m : NodeId} (hm : m ∈ t.subtree n) : n.idx ≤ m.idx := by
  induction n using h.induction with
  | step n ih =>
    rcases h.mem_subtree.1 hm with rfl | ⟨c, hc, hm⟩
    · exact Nat.le_refl _
    · exact Nat.le_of_lt (Nat.lt_of_lt_of_le (h.lt_of_mem_children hc).1 (ih c hc hm))

theorem mem_subtree_trans {n m x : NodeId} (hm : m ∈ t.subtree n) (hx : x ∈ t.subtree m) :
    x ∈ t.subtree n := by
  induction n using h.induction with
  | step n ih =>
    rcases h.mem_subtree.1 hm with rfl | ⟨c, hc, hm⟩
    · exact hx
    · exact h.mem_subtree.2 (.inr ⟨c, hc, ih c hc hm⟩)

theorem mem_subtree_of_mem_children {n c : NodeId} (hc : c ∈ t.children n) :
    c ∈ t.subtree n :=
  h.mem_subtree.2 (.inr ⟨c, hc, by rw [h.subtree_eq]; exact List.mem_cons_self⟩)

/-- The ancestors of a node are closed under taking parents. -/
theorem parent_mem_ancestors {m x y : NodeId} (hx : x ∈ t.ancestors m) (hy : t.parent x = some y) :
    y ∈ t.ancestors m := by
  induction hk : m.idx using Nat.strongRecOn generalizing m with
  | ind k ih =>
    cases hm : t.parent m with
    | none => rw [ancestors_of_parent_eq_none hm] at hx; cases hx
    | some p =>
      rw [h.ancestors_of_parent hm] at hx ⊢
      rcases List.mem_cons.1 hx with rfl | hx
      · rw [h.ancestors_of_parent hy]
        exact List.mem_cons_of_mem _ List.mem_cons_self
      · exact List.mem_cons_of_mem _ (ih p.idx (hk ▸ h.parent_lt m p hm) hx rfl)

/-- **Subtrees are ancestors read downwards.** A node of the tree is below `n` exactly when it is
`n` or has `n` among its ancestors. -/
theorem mem_subtree_iff {n m : NodeId} (hm : t.contains m) :
    m ∈ t.subtree n ↔ m = n ∨ n ∈ t.ancestors m := by
  constructor
  · intro hmn
    induction n using h.induction with
    | step n ih =>
      rcases h.mem_subtree.1 hmn with rfl | ⟨c, hc, hmc⟩
      · exact .inl rfl
      · have hpar := ((h.mem_children n c).1 hc).2
        rcases ih c hc hmc with rfl | hca
        · exact .inr (by rw [h.ancestors_of_parent hpar]; exact List.mem_cons_self)
        · exact .inr (h.parent_mem_ancestors hca hpar)
  · rintro (rfl | hn)
    · rw [h.subtree_eq]
      exact List.mem_cons_self
    · induction hk : m.idx using Nat.strongRecOn generalizing m with
      | ind k ih =>
        cases hpm : t.parent m with
        | none => rw [ancestors_of_parent_eq_none hpm] at hn; cases hn
        | some p =>
          have hmem : m ∈ t.children p := (h.mem_children p m).2 ⟨hm, hpm⟩
          rw [h.ancestors_of_parent hpm] at hn
          rcases List.mem_cons.1 hn with rfl | hn
          · exact h.mem_subtree_of_mem_children hmem
          · exact h.mem_subtree_trans
              (ih p.idx (hk ▸ h.parent_lt m p hpm) (h.contains_parent hpm) hn rfl)
              (h.mem_subtree_of_mem_children hmem)

/-- Two nodes on the line from a node up to the root that share a parent are the same node. -/
theorem eq_of_mem_line {m x y n : NodeId} (hx : x ∈ m :: t.ancestors m)
    (hy : y ∈ m :: t.ancestors m) (hxn : t.parent x = some n) (hyn : t.parent y = some n) :
    x = y := by
  induction hk : m.idx using Nat.strongRecOn generalizing m with
  | ind k ih =>
    -- on the line above `m`, every node comes no later than the parent of `m`
    have above : ∀ {p z}, t.parent m = some p → z ∈ t.ancestors m → z.idx ≤ p.idx := by
      intro p z hp hz
      rw [h.ancestors_of_parent hp] at hz
      rcases List.mem_cons.1 hz with rfl | hz
      · exact Nat.le_refl _
      · exact Nat.le_of_lt (idx_lt_of_mem_ancestors hz)
    rcases List.mem_cons.1 hx with rfl | hx'
    · rcases List.mem_cons.1 hy with rfl | hy'
      · rfl
      · have := above hxn hy'
        have := h.parent_lt y n hyn
        omega
    · rcases List.mem_cons.1 hy with rfl | hy'
      · have := above hyn hx'
        have := h.parent_lt x n hxn
        omega
      · cases hpm : t.parent m with
        | none => rw [ancestors_of_parent_eq_none hpm] at hx'; cases hx'
        | some p =>
          rw [h.ancestors_of_parent hpm] at hx' hy'
          exact ih p.idx (hk ▸ h.parent_lt m p hpm) hx' hy' rfl

theorem contains_of_mem_subtree {n m : NodeId} (hn : t.contains n) (hm : m ∈ t.subtree n) :
    t.contains m := by
  induction n using h.induction with
  | step n ih =>
    rcases h.mem_subtree.1 hm with rfl | ⟨c, hc, hm⟩
    · exact hn
    · exact ih c hc (h.lt_of_mem_children hc).2 hm

/-- Each node occurs once below a node of the tree. -/
theorem nodup_subtree {n : NodeId} (hn : t.contains n) : (t.subtree n).Nodup := by
  induction n using h.induction with
  | step n ih =>
    rw [h.subtree_eq, List.nodup_cons, List.nodup_flatMap]
    refine ⟨?_, fun c hc => ih c hc (h.lt_of_mem_children hc).2, ?_⟩
    · -- the node comes before everything below its children
      intro hmem
      obtain ⟨c, hc, hnc⟩ := List.mem_flatMap.1 hmem
      have := h.idx_le_of_mem_subtree hnc
      have := (h.lt_of_mem_children hc).1
      omega
    · -- a node below two children would have two parents on its line up
      refine (h.nodup_children n).imp_of_mem fun {a c} ha hc hac =>
        List.disjoint_left.2 fun {m} hma hmc => hac ?_
      have hm := h.contains_of_mem_subtree (h.lt_of_mem_children ha).2 hma
      have hline : ∀ {x}, m ∈ t.subtree x → x ∈ m :: t.ancestors m := fun hmx =>
        ((h.mem_subtree_iff hm).1 hmx).elim (fun hmx => hmx ▸ List.mem_cons_self) (List.mem_cons_of_mem _)
      exact h.eq_of_mem_line (hline hma) (hline hmc) ((h.mem_children n a).1 ha).2
        ((h.mem_children n c).1 hc).2
/-! ### The preorder of a linked tree -/

end Linked

end SyntaxTree

/-- One call on a tree builder. -/
inductive BuilderCall where
  | startNode (kind : SyntaxKind) (role : Role) (start : Nat)
  | finishNode (stop : Nat)
  | leaf (kind : SyntaxKind) (role : Role) (range : Range)
  | setIdentifier (id : NodeId) (s : String)
  | setBinding (id : NodeId) (x : Binding)
  | setTypeBinding (id : NodeId) (ty : TypeId)
  | setModifiers (id : NodeId) (m : Modifiers)

namespace TreeBuilder

/-- The builder after one call. Closing a node when none is open changes nothing. -/
def call (b : TreeBuilder) : BuilderCall → TreeBuilder
  | .startNode k r s => (b.startNode k r s).1
  | .finishNode stop =>
    match b.finishNode stop with
    | .ok (b', _) => b'
    | .error _ => b
  | .leaf k r range => (b.leaf k r range).1
  | .setIdentifier id s => b.setIdentifier id s
  | .setBinding id x => b.setBinding id x
  | .setTypeBinding id ty => b.setTypeBinding id ty
  | .setModifiers id m => b.setModifiers id m

/-- The builder after a sequence of calls. -/
def run (b : TreeBuilder) (cs : List BuilderCall) : TreeBuilder := cs.foldl call b

/-- The nodes built so far, read as a tree. -/
def view (b : TreeBuilder) : SyntaxTree := ⟨default, "", b.nodes⟩

variable (b : TreeBuilder)

/-- The node at an index after opening a node: the new node at the end, with the innermost open
node as parent, which gains it as last child. -/
theorem startNode_nodes_getElem? (k : SyntaxKind) (r : Role) (s : Nat) (i : Nat)
    (hcur : ∀ p, b.current = some p → p.idx < b.nodes.size) :
    (b.startNode k r s).1.nodes[i]? =
      if i = b.nodes.size then some { kind := k, role := r, parent := b.current, range := Range.point s }
      else b.nodes[i]?.map fun nd =>
        if b.current = some ⟨i⟩ then { nd with children := nd.children.push ⟨b.nodes.size⟩ } else nd := by
  unfold startNode
  cases hc : b.current with
  | none => simp [Array.getElem?_push]
  | some p =>
    have hp := hcur p hc
    simp only [Array.getElem?_modify, Array.getElem?_push]
    by_cases hi : i = b.nodes.size
    · have : p.idx ≠ b.nodes.size := by omega
      simp [hi, this]
    · by_cases hpi : p.idx = i
      · subst hpi
        simp [hi]
      · have : p ≠ ⟨i⟩ := fun h => hpi (by rw [h])
        simp [hi, hpi, this]

theorem startNode_size (k : SyntaxKind) (r : Role) (s : Nat) :
    (b.startNode k r s).1.nodes.size = b.nodes.size + 1 := by
  unfold startNode
  cases b.current <;> simp

theorem startNode_openNodes (k : SyntaxKind) (r : Role) (s : Nat) :
    (b.startNode k r s).1.openNodes = ⟨b.nodes.size⟩ :: b.openNodes := by
  unfold startNode
  cases b.current <;> rfl

section startNode

variable {b} (k : SyntaxKind) (r : Role) (s : Nat)
  (hcur : ∀ p, b.current = some p → p.idx < b.nodes.size)
include hcur

/-- The new node names the innermost open node as parent; the other nodes keep theirs. -/
theorem view_parent_startNode (n : NodeId) :
    (b.startNode k r s).1.view.parent n =
      if n.idx = b.nodes.size then b.current else b.view.parent n := by
  simp only [view, SyntaxTree.parent, SyntaxTree.node, b.startNode_nodes_getElem? k r s n.idx hcur]
  by_cases hn : n.idx = b.nodes.size
  · simp [hn]
  · simp only [hn, if_false]
    cases b.nodes[n.idx]? with
    | none => rfl
    | some nd =>
      simp only [Option.map_some, Option.getD_some]
      split_ifs <;> rfl

/-- The innermost open node gains the new node as its last child; no other node changes its
children. -/
theorem view_children_startNode (q : NodeId) :
    (b.startNode k r s).1.view.children q =
      if b.current = some q then b.view.children q ++ [⟨b.nodes.size⟩] else b.view.children q := by
  simp only [view, SyntaxTree.children, SyntaxTree.node, b.startNode_nodes_getElem? k r s q.idx hcur]
  by_cases hq : q.idx = b.nodes.size
  · have hne : b.current ≠ some q := fun hc => by have := hcur q hc; omega
    have hnone : b.nodes[q.idx]? = none := Array.getElem?_eq_none (by omega)
    simp [hq, hne]
    rfl
  · simp only [hq, if_false]
    cases hnq : b.nodes[q.idx]? with
    | none =>
      have hne : b.current ≠ some q := fun hc => by
        have := hcur q hc
        have := Array.getElem?_eq_none_iff.1 hnq
        omega
      simp [hne]
    | some nd =>
      simp only [Option.map_some, Option.getD_some]
      split_ifs <;> simp

end startNode

/-- What every call keeps: each node's parent comes before it, the children of a node are the
nodes naming it as parent in the order they were opened, and the open nodes are nodes. -/
structure Inv (b : TreeBuilder) : Prop where
  parent_lt : ∀ n p, b.view.parent n = some p → p.idx < n.idx
  children_eq : ∀ p, b.view.children p = b.view.childrenNamed p
  open_lt : ∀ n ∈ b.openNodes, n.idx < b.nodes.size

theorem inv_empty : ({} : TreeBuilder).Inv where
  parent_lt n p h := by simp [view, SyntaxTree.parent, SyntaxTree.node] at h; cases h
  children_eq p := by simp [view, SyntaxTree.children, SyntaxTree.node, SyntaxTree.childrenNamed,
    SyntaxTree.size]; rfl
  open_lt n h := by cases h

theorem Inv.current_lt {b : TreeBuilder} (h : b.Inv) : ∀ p, b.current = some p → p.idx < b.nodes.size :=
  fun p hp => h.open_lt p (List.mem_of_mem_head? hp)

/-- Opening a node appends it to the nodes that name the innermost open node as parent. -/
theorem Inv.childrenNamed_startNode {b : TreeBuilder} (h : b.Inv) (k : SyntaxKind) (r : Role)
    (s : Nat) (q : NodeId) :
    (b.startNode k r s).1.view.childrenNamed q =
      b.view.childrenNamed q ++ if b.current = some q then [⟨b.nodes.size⟩] else [] := by
  have hsize : (b.startNode k r s).1.view.size = b.view.size + 1 := b.startNode_size k r s
  rw [SyntaxTree.childrenNamed, hsize, List.range_succ, List.filterMap_append]
  congr 1
  · refine List.filterMap_congr fun i hi => ?_
    have hi : i ≠ b.nodes.size := Nat.ne_of_lt (List.mem_range.1 hi)
    rw [view_parent_startNode k r s h.current_lt]
    simp [hi]
  · simp only [List.filterMap_cons, List.filterMap_nil, view_parent_startNode k r s h.current_lt]
    by_cases hc : b.current = some q <;> simp [hc, view, SyntaxTree.size]

theorem Inv.startNode {b : TreeBuilder} (h : b.Inv) (k : SyntaxKind) (r : Role) (s : Nat) :
    (b.startNode k r s).1.Inv where
  parent_lt n p hp := by
    rw [view_parent_startNode k r s h.current_lt] at hp
    split_ifs at hp with hn
    · rw [hn]
      exact h.current_lt p hp
    · exact h.parent_lt n p hp
  children_eq q := by
    rw [view_children_startNode k r s h.current_lt, h.childrenNamed_startNode, h.children_eq]
    split_ifs <;> simp
  open_lt n hn := by
    rw [startNode_openNodes] at hn
    rw [startNode_size]
    rcases List.mem_cons.1 hn with rfl | hn
    · exact Nat.lt_succ_self _
    · exact Nat.lt_succ_of_lt (h.open_lt n hn)

/-! ### Calls that change a node in place -/

theorem view_parent_modify {f : Node → Node} (hf : ∀ nd, (f nd).parent = nd.parent)
    (id n : NodeId) : (b.modify id f).view.parent n = b.view.parent n := by
  simp only [modify, view, SyntaxTree.parent, SyntaxTree.node, Array.getElem?_modify]
  split_ifs
  · cases b.nodes[n.idx]? <;> simp [hf]
  · rfl

theorem view_children_modify {f : Node → Node} (hf : ∀ nd, (f nd).children = nd.children)
    (id n : NodeId) : (b.modify id f).view.children n = b.view.children n := by
  simp only [modify, view, SyntaxTree.children, SyntaxTree.node, Array.getElem?_modify]
  split_ifs
  · cases b.nodes[n.idx]? <;> simp [hf]
  · rfl

/-- A call that changes one node but neither its parent nor its children keeps the invariant. -/
theorem Inv.modify {b : TreeBuilder} (h : b.Inv) (f : Node → Node)
    (hparent : ∀ nd, (f nd).parent = nd.parent) (hchildren : ∀ nd, (f nd).children = nd.children)
    (id : NodeId) : (b.modify id f).Inv where
  parent_lt n p hp := h.parent_lt n p (by rwa [view_parent_modify b hparent] at hp)
  children_eq q := by
    have hsize : (b.modify id f).view.size = b.view.size := by
      simp [TreeBuilder.modify, view, SyntaxTree.size]
    rw [view_children_modify b hchildren, h.children_eq]
    simp only [SyntaxTree.childrenNamed, view_parent_modify b hparent, hsize]
  open_lt n hn := by
    simpa [TreeBuilder.modify] using h.open_lt n hn

theorem Inv.finishNode {b b' : TreeBuilder} {stop : Nat} {id : NodeId} (h : b.Inv)
    (hf : b.finishNode stop = .ok (b', id)) : b'.Inv := by
  unfold TreeBuilder.finishNode at hf
  cases hop : b.openNodes with
  | nil => simp [hop] at hf
  | cons top rest =>
    simp only [hop, Except.ok.injEq, Prod.mk.injEq] at hf
    obtain ⟨rfl, -⟩ := hf
    have hm := h.modify (fun n => { n with range := ⟨n.range.start, max stop n.range.start⟩ })
      (fun _ => rfl) (fun _ => rfl) top
    exact ⟨hm.parent_lt, hm.children_eq, fun n hn =>
      hm.open_lt n (by simp [TreeBuilder.modify, hop, hn])⟩

theorem Inv.leaf {b : TreeBuilder} (h : b.Inv) (k : SyntaxKind) (r : Role) (range : Range) :
    (b.leaf k r range).1.Inv := by
  have hs := h.startNode k r range.start
  unfold TreeBuilder.leaf
  generalize b.startNode k r range.start = p at hs ⊢
  obtain ⟨b₁, id₁⟩ := p
  dsimp only
  cases hf : b₁.finishNode range.stop with
  | error e => exact hs
  | ok v => exact hs.finishNode hf

/-- **Step lemma**: every call keeps the invariant. -/
theorem Inv.call {b : TreeBuilder} (h : b.Inv) : ∀ c, (b.call c).Inv
  | .startNode k r s => h.startNode k r s
  | .finishNode stop => by
    show (match b.finishNode stop with | .ok (b', _) => b' | .error _ => b).Inv
    cases hf : b.finishNode stop with
    | error e => exact h
    | ok v => exact h.finishNode hf
  | .leaf k r range => h.leaf k r range
  | .setIdentifier id s => h.modify (fun n => { n with identifier := some s })
      (fun _ => rfl) (fun _ => rfl) id
  | .setBinding id x => h.modify (fun n => { n with binding := some x })
      (fun _ => rfl) (fun _ => rfl) id
  | .setTypeBinding id ty => h.modify (fun n => { n with typeBinding := some ty })
      (fun _ => rfl) (fun _ => rfl) id
  | .setModifiers id m => h.modify (fun n => { n with modifiers := m })
      (fun _ => rfl) (fun _ => rfl) id

/-- **Run lemma**: every sequence of calls keeps the invariant. -/
theorem Inv.run {b : TreeBuilder} (h : b.Inv) (cs : List BuilderCall) : (b.run cs).Inv := by
  induction cs generalizing b with
  | nil => exact h
  | cons c cs ih => exact ih (h.call c)

/-- The nodes of a builder that keeps the invariant form a linked tree, whatever its file and
text. -/
theorem Inv.linked {b : TreeBuilder} (h : b.Inv) (file : FileId) (text : String) :
    (⟨file, text, b.nodes⟩ : SyntaxTree).Linked where
  parent_lt := h.parent_lt
  mem_children p c := by
    rw [show (⟨file, text, b.nodes⟩ : SyntaxTree).children p = b.view.children p from rfl,
      h.children_eq]
    exact SyntaxTree.mem_childrenNamed
  nodup_children p := by
    rw [show (⟨file, text, b.nodes⟩ : SyntaxTree).children p = b.view.children p from rfl,
      h.children_eq]
    exact SyntaxTree.nodup_childrenNamed _ _

/-- What `finish` accepts: nothing left open, some node, and no node out of the text or out of its
parent; the tree is then the nodes with the file and the text. -/
theorem finish_eq_ok {b : TreeBuilder} {file : FileId} {text : String} {t : SyntaxTree}
    (h : b.finish file text = .ok t) :
    b.openNodes = [] ∧ b.nodes.size ≠ 0 ∧
      firstMisplaced b.nodes (Text.byteSize text.toList) = none ∧ t = ⟨file, text, b.nodes⟩ := by
  unfold finish at h
  cases hop : b.openNodes with
  | cons n rest => simp [hop] at h
  | nil =>
    simp only [hop] at h
    by_cases hs : b.nodes.size = 0
    · simp [hs] at h
    · cases hm : firstMisplaced b.nodes (Text.byteSize text.toList) with
      | some e => simp [hs, hm] at h
      | none =>
        simp only [hs, hm, if_false, Except.ok.injEq] at h
        exact ⟨rfl, hs, rfl, h.symm⟩

end TreeBuilder

end QuickFix
