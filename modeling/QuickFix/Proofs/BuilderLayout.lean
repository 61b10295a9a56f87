import Mathlib.Data.List.Chain
import QuickFix.Proofs.TreeBuilding

/-!
# Trees laid out along a growing text

A renderer writes text at the end of a buffer and, as it goes, opens and closes syntax nodes at
that end. `TreeBuilder.Placed` is what such a builder keeps of its nodes over the text written so
far: the open nodes form a line of parents, innermost first; every range lies within the text;
a node starts no earlier than its parent and, once the parent is closed, is closed and ends
within it; each child is closed and ends before the next child starts; and every simple name
that carries an identifier is closed and spells it.

Main statements: the placement is kept when text is appended (`Placed.append`), when a node is
opened or closed at the end (`Placed.startNode`, `Placed.finishNode`), when a leaf is added over
text just written (`Placed.leaf`), and when a node's identifier, binding, type or modifiers are
set; once no node is open, `finish` accepts the nodes (`Placed.finish_eq_ok`).
-/

namespace QuickFix

namespace Text

/-- Cutting within the first part of a text leaves the second part whole after the cut. -/
theorem splitBytes_append_of_le {xs : List Char} {n : Nat} (h : n ≤ byteSize xs) (ys : List Char) :
    splitBytes (xs ++ ys) n = ((splitBytes xs n).1, (splitBytes xs n).2 ++ ys) := by
  induction xs generalizing n with
  | nil =>
    obtain rfl : n = 0 := by simpa using h
    cases ys with
    | nil => rfl
    | cons c ys => simp [splitBytes, (Char.utf8Size_pos c).ne']
  | cons c xs ih =>
    simp only [byteSize_cons] at h
    simp only [List.cons_append, splitBytes]
    split
    · rw [ih (by omega)]
    · rfl

theorem byteSize_dropBytes (xs : List Char) (n : Nat) :
    byteSize (dropBytes xs n) = byteSize xs - byteSize (takeBytes xs n) := by
  have h := congrArg byteSize (splitBytes_append xs n)
  simp only [byteSize_append] at h
  simp only [takeBytes, dropBytes]
  omega

/-- A slice that ends within the first part of a text does not see the second. -/
theorem sliceBytes_append_of_le {xs : List Char} {a b : Nat} (hab : a ≤ b) (hb : b ≤ byteSize xs)
    (ys : List Char) : sliceBytes (xs ++ ys) a b = sliceBytes xs a b := by
  have hdrop : dropBytes (xs ++ ys) a = dropBytes xs a ++ ys := by
    simp only [dropBytes, splitBytes_append_of_le (Nat.le_trans hab hb)]
  have hle : b - a ≤ byteSize (dropBytes xs a) := by
    have := byteSize_splitBytes_le xs a
    rw [byteSize_dropBytes]
    simp only [takeBytes]
    omega
  simp only [sliceBytes, hdrop, takeBytes, splitBytes_append_of_le hle]

theorem slice_append_of_le {s : String} {a b : Nat} (hab : a ≤ b) (hb : b ≤ byteSize s.toList)
    (t : String) : slice (s ++ t) a b = slice s a b := by
  simp only [slice, String.toList_append, sliceBytes_append_of_le hab hb]

/-- The text appended last is the slice between the old end and the new one. -/
theorem slice_append_byteSize (s t : String) :
    slice (s ++ t) (byteSize s.toList) (byteSize (s ++ t).toList) = t := by
  have htake := takeBytes_append_byteSize t.toList []
  simp only [List.append_nil] at htake
  simp only [slice, sliceBytes, String.toList_append, dropBytes_append_byteSize, byteSize_append,
    Nat.add_sub_cancel_left, htake, String.ofList_toList]

theorem utf8ByteSize_eq_byteSize (s : String) : s.utf8ByteSize = byteSize s.toList := by
  rw [← String.ofList_toList (s := s)]
  generalize s.toList = cs
  induction cs with
  | nil => rfl
  | cons c cs ih =>
    rw [String.toList_ofList] at ih ⊢
    rw [String.ofList_cons, String.utf8ByteSize_append, String.utf8ByteSize_singleton, ih,
      byteSize_cons]

end Text

namespace SyntaxTree

/-- Nodes form a **line** when each names the next as its parent and the last names none: the
open nodes of a builder, innermost first. -/
def IsLine (t : SyntaxTree) : List NodeId → Prop
  | [] => True
  | n :: rest => t.parent n = rest.head? ∧ t.IsLine rest

/-- A line is a line in every tree that gives its nodes the same parents. -/
theorem IsLine.congr {t t' : SyntaxTree} {ns : List NodeId} (h : t.IsLine ns)
    (hp : ∀ n ∈ ns, t'.parent n = t.parent n) : t'.IsLine ns := by
  induction ns with
  | nil => trivial
  | cons n rest ih =>
    refine ⟨(hp n List.mem_cons_self).trans h.1, ih h.2 fun m hm => hp m (List.mem_cons_of_mem n hm)⟩

/-- Where parents come first, a line goes from later nodes to earlier ones. -/
theorem IsLine.pairwise {t : SyntaxTree} (hlt : ∀ n p, t.parent n = some p → p.idx < n.idx) :
    ∀ {ns : List NodeId}, t.IsLine ns → ns.Pairwise fun a c => c.idx < a.idx
  | [], _ => List.Pairwise.nil
  | [_], _ => List.pairwise_singleton _ _
  | n :: p :: rest, ⟨hn, hrest⟩ => by
    have hnp : p.idx < n.idx := hlt n p hn
    have hps := IsLine.pairwise hlt hrest
    refine List.Pairwise.cons (fun c hc => ?_) hps
    rcases List.mem_cons.1 hc with rfl | hc
    · exact hnp
    · exact Nat.lt_trans (List.rel_of_pairwise_cons hps hc) hnp

end SyntaxTree

/-- A node closed at `stop`, or at its start if `stop` comes before it. -/
def Node.closedAt (stop : Nat) (n : Node) : Node :=
  { n with range := ⟨n.range.start, max stop n.range.start⟩ }

namespace TreeBuilder

variable (b : TreeBuilder)

/-! ### What each call does to one node -/

theorem view_node_startNode (k : SyntaxKind) (r : Role) (s : Nat)
    (hcur : ∀ p, b.current = some p → p.idx < b.nodes.size) (n : NodeId) :
    (b.startNode k r s).1.view.node n =
      if n.idx = b.nodes.size then { kind := k, role := r, parent := b.current, range := Range.point s }
      else if b.current = some n then
        { b.view.node n with children := (b.view.node n).children.push ⟨b.nodes.size⟩ }
      else b.view.node n := by
  simp only [view, SyntaxTree.node, b.startNode_nodes_getElem? k r s n.idx hcur]
  split_ifs with hs hc
  · rfl
  · rw [Array.getElem?_eq_getElem (hcur n hc)]
    simp
  · cases b.nodes[n.idx]? with
    | none => rfl
    | some nd => simp

section startNode

variable {b} (k : SyntaxKind) (r : Role) (s : Nat)
  (hcur : ∀ p, b.current = some p → p.idx < b.nodes.size)
include hcur

theorem view_range_startNode (n : NodeId) :
    (b.startNode k r s).1.view.range n =
      if n.idx = b.nodes.size then Range.point s else b.view.range n := by
  simp only [SyntaxTree.range, b.view_node_startNode k r s hcur]
  split_ifs <;> rfl

theorem view_kind_startNode (n : NodeId) :
    (b.startNode k r s).1.view.kind n = if n.idx = b.nodes.size then k else b.view.kind n := by
  simp only [SyntaxTree.kind, b.view_node_startNode k r s hcur]
  split_ifs <;> rfl

theorem view_identifier_startNode (n : NodeId) :
    (b.startNode k r s).1.view.identifier n =
      if n.idx = b.nodes.size then none else b.view.identifier n := by
  simp only [SyntaxTree.identifier, b.view_node_startNode k r s hcur]
  split_ifs <;> rfl

end startNode

theorem view_node_modify (id : NodeId) (f : Node → Node) (n : NodeId) :
    (b.modify id f).view.node n =
      if id = n ∧ n.idx < b.nodes.size then f (b.view.node n) else b.view.node n := by
  simp only [view, SyntaxTree.node, modify, Array.getElem?_modify]
  by_cases hid : id = n
  · subst hid
    by_cases hn : id.idx < b.nodes.size
    · simp [hn]
    · simp [hn]
  · have hidx : id.idx ≠ n.idx := fun he => hid (by cases id; cases n; simp_all)
    simp [hid, hidx]

/-- A change to one node that keeps some field of every node keeps that field of the view. -/
theorem view_field_modify {β : Type} (g : Node → β) {f : Node → Node} (hf : ∀ nd, g (f nd) = g nd)
    (id n : NodeId) : g ((b.modify id f).view.node n) = g (b.view.node n) := by
  rw [view_node_modify]
  split_ifs
  · exact hf _
  · rfl

section closedAt

variable (id : NodeId) (stop : Nat) (n : NodeId)

/-- Closing a node changes only where it stops. -/
theorem view_kind_closedAt : (b.modify id (Node.closedAt stop)).view.kind n = b.view.kind n :=
  @view_field_modify b _ Node.kind (Node.closedAt stop) (fun _ => rfl) id n

theorem view_parent_closedAt : (b.modify id (Node.closedAt stop)).view.parent n = b.view.parent n :=
  @view_field_modify b _ Node.parent (Node.closedAt stop) (fun _ => rfl) id n

theorem view_identifier_closedAt :
    (b.modify id (Node.closedAt stop)).view.identifier n = b.view.identifier n :=
  @view_field_modify b _ Node.identifier (Node.closedAt stop) (fun _ => rfl) id n

theorem view_children_closedAt :
    (b.modify id (Node.closedAt stop)).view.children n = b.view.children n :=
  @view_field_modify b _ (fun nd => nd.children.toList) (Node.closedAt stop) (fun _ => rfl) id n

theorem view_start_closedAt :
    ((b.modify id (Node.closedAt stop)).view.range n).start = (b.view.range n).start :=
  @view_field_modify b _ (fun nd => nd.range.start) (Node.closedAt stop) (fun _ => rfl) id n

end closedAt

theorem finishNode_of_openNodes {top : NodeId} {rest : List NodeId} (hop : b.openNodes = top :: rest)
    (stop : Nat) :
    b.finishNode stop = .ok ({ b.modify top (Node.closedAt stop) with openNodes := rest }, top) := by
  simp only [finishNode, hop]
  rfl

/-! ### The placement invariant -/

/-- What a builder keeps of its nodes over the text written so far, when nodes are opened and
closed only at the end of the text. -/
structure Placed (text : String) : Prop where
  inv : b.Inv
  line : b.view.IsLine b.openNodes
  bounded : ∀ n : NodeId, n.idx < b.nodes.size →
    (b.view.range n).start ≤ (b.view.range n).stop ∧ (b.view.range n).stop ≤ Text.byteSize text.toList
  nested : ∀ n p, b.view.parent n = some p → (b.view.range p).start ≤ (b.view.range n).start ∧
    (p ∉ b.openNodes → n ∉ b.openNodes ∧ (b.view.range n).stop ≤ (b.view.range p).stop)
  ordered : ∀ p, (b.view.children p).IsChain fun a c =>
    a ∉ b.openNodes ∧ (b.view.range a).stop ≤ (b.view.range c).start
  named : ∀ n s, b.view.kind n = .simpleName → b.view.identifier n = some s →
    n ∉ b.openNodes ∧ Text.slice text (b.view.range n).start (b.view.range n).stop = s

theorem placed_empty : ({} : TreeBuilder).Placed "" where
  inv := inv_empty
  line := trivial
  bounded n hn := absurd hn (Nat.not_lt_zero _)
  nested n p hp := by simp [view, SyntaxTree.parent, SyntaxTree.node] at hp; cases hp
  ordered p := List.isChain_nil
  named n s _ hs := by simp [view, SyntaxTree.identifier, SyntaxTree.node] at hs; cases hs

variable {b} {text : String}

/-- A node outside the builder reads as the default node. -/
theorem view_node_of_le {n : NodeId} (hn : b.nodes.size ≤ n.idx) : b.view.node n = default := by
  simp [view, SyntaxTree.node, Array.getElem?_eq_none hn]

theorem idx_lt_of_parent_eq_some {n p : NodeId} (hp : b.view.parent n = some p) :
    n.idx < b.nodes.size := by
  by_contra hn
  rw [SyntaxTree.parent, view_node_of_le (Nat.le_of_not_lt hn)] at hp
  cases hp

theorem idx_lt_of_identifier_eq_some {n : NodeId} {s : String}
    (hid : b.view.identifier n = some s) : n.idx < b.nodes.size := by
  by_contra hn
  rw [SyntaxTree.identifier, view_node_of_le (Nat.le_of_not_lt hn)] at hid
  cases hid

theorem Placed.idx_lt_of_mem_children (h : b.Placed text) {p c : NodeId}
    (hc : c ∈ b.view.children p) : c.idx < b.nodes.size :=
  idx_lt_of_parent_eq_some (((h.inv.linked default "").mem_children p c |>.1 hc).2)

theorem Placed.parent_of_mem_children (h : b.Placed text) {p c : NodeId}
    (hc : c ∈ b.view.children p) : b.view.parent c = some p :=
  ((h.inv.linked default "").mem_children p c |>.1 hc).2

/-- The children of the innermost open node are all closed: a child opened later would stand
above it in the line. -/
theorem Placed.not_mem_openNodes_of_parent (h : b.Placed text) {top : NodeId} {rest : List NodeId}
    (hop : b.openNodes = top :: rest) {n : NodeId} (hp : b.view.parent n = some top) :
    n ∉ b.openNodes := by
  have htop : top.idx < n.idx := h.inv.parent_lt n top hp
  have hline := h.line
  rw [hop] at hline ⊢
  have hdesc := SyntaxTree.IsLine.pairwise h.inv.parent_lt hline
  intro hn
  rcases List.mem_cons.1 hn with rfl | hn
  · exact Nat.lt_irrefl _ htop
  · exact Nat.lt_asymm htop (List.rel_of_pairwise_cons hdesc hn)

/-! ### Appending text -/

theorem Placed.append (h : b.Placed text) (s : String) : b.Placed (text ++ s) where
  inv := h.inv
  line := h.line
  bounded n hn := by
    have := h.bounded n hn
    simp only [String.toList_append, Text.byteSize_append]
    omega
  nested := h.nested
  ordered := h.ordered
  named n t hk hid := by
    obtain ⟨hno, hslice⟩ := h.named n t hk hid
    have hn := h.bounded n (idx_lt_of_identifier_eq_some hid)
    refine ⟨hno, ?_⟩
    rw [Text.slice_append_of_le hn.1 hn.2]
    exact hslice

/-! ### Opening and closing nodes at the end -/

/-- Opening a node at an offset past every range written, within the text, keeps the placement. -/
theorem Placed.startNode (h : b.Placed text) {p : Nat}
    (hp : ∀ n : NodeId, n.idx < b.nodes.size → (b.view.range n).stop ≤ p)
    (hlen : p ≤ Text.byteSize text.toList) (k : SyntaxKind) (r : Role) :
    (b.startNode k r p).1.Placed text := by
  have hcur := h.inv.current_lt
  have hopen := b.startNode_openNodes k r p
  have hsize := b.startNode_size k r p
  have hparent := view_parent_startNode k r p hcur
  have hrange := view_range_startNode k r p hcur
  -- a node that was there is not the new one
  have hne : ∀ n : NodeId, n.idx < b.nodes.size → n.idx ≠ b.nodes.size := fun _ hn => Nat.ne_of_lt hn
  have hnot_new : ∀ {n : NodeId}, n.idx ≠ b.nodes.size → n ∉ b.openNodes →
      n ∉ (⟨b.nodes.size⟩ : NodeId) :: b.openNodes := fun hn hno hmem => by
    rcases List.mem_cons.1 hmem with he | hmem
    · exact hn (by rw [he])
    · exact hno hmem
  refine ⟨h.inv.startNode k r p, ?_, ?_, ?_, ?_, ?_⟩
  · -- line: the new node hangs under the innermost open node
    rw [hopen]
    refine ⟨by rw [hparent]; simp [current], h.line.congr fun n hn => ?_⟩
    rw [hparent, if_neg (hne n (h.inv.open_lt n hn))]
  · intro n hn
    rw [hsize] at hn
    rw [hrange]
    split_ifs with hnew
    · exact ⟨Nat.le_refl _, hlen⟩
    · exact h.bounded n (by omega)
  · intro n q hq
    rw [hopen]
    rw [hparent] at hq
    by_cases hn : n.idx = b.nodes.size
    · rw [if_pos hn] at hq
      have hqo : q ∈ b.openNodes := List.mem_of_mem_head? hq
      have hqc := h.inv.open_lt q hqo
      rw [hrange, hrange, if_pos hn, if_neg (hne q hqc)]
      refine ⟨Nat.le_trans (h.bounded q hqc).1 (hp q hqc), fun hq' => ?_⟩
      exact absurd (List.mem_cons_of_mem _ hqo) hq'
    · rw [if_neg hn] at hq
      have hq' : q.idx ≠ b.nodes.size :=
        hne q (Nat.lt_trans (h.inv.parent_lt n q hq) (idx_lt_of_parent_eq_some hq))
      rw [hrange, hrange, if_neg hn, if_neg hq']
      obtain ⟨hstart, hclosed⟩ := h.nested n q hq
      refine ⟨hstart, fun hqo => ?_⟩
      obtain ⟨hno, hstop⟩ := hclosed fun hqo' => hqo (List.mem_cons_of_mem _ hqo')
      exact ⟨hnot_new hn hno, hstop⟩
  · intro q
    rw [view_children_startNode k r p hcur, hopen]
    -- the old children keep their relation: none of them is the new node
    have hold : (b.view.children q).IsChain fun a c =>
        a ∉ (⟨b.nodes.size⟩ : NodeId) :: b.openNodes ∧
          ((b.startNode k r p).1.view.range a).stop ≤ ((b.startNode k r p).1.view.range c).start := by
      refine (List.IsChain.iff_mem.1 (h.ordered q)).imp fun a c ⟨ha, hc, hrel⟩ => ?_
      have hac := hne a (h.idx_lt_of_mem_children ha)
      rw [hrange, hrange, if_neg hac, if_neg (hne c (h.idx_lt_of_mem_children hc))]
      exact ⟨hnot_new hac hrel.1, hrel.2⟩
    split_ifs with hq
    · refine hold.append (List.isChain_singleton _) fun a ha c hc => ?_
      simp only [List.head?_cons, Option.mem_def, Option.some.injEq] at hc
      subst hc
      have ha' := List.mem_of_getLast? ha
      have hac := hne a (h.idx_lt_of_mem_children ha')
      have hop : b.openNodes = q :: b.openNodes.tail := by
        cases hO : b.openNodes with
        | nil => simp [current, hO] at hq
        | cons o rest => simp [current, hO] at hq; subst hq; rfl
      rw [hrange, hrange, if_neg hac, if_pos rfl]
      exact ⟨hnot_new hac (h.not_mem_openNodes_of_parent hop (h.parent_of_mem_children ha')),
        hp a (h.idx_lt_of_mem_children ha')⟩
    · exact hold
  · intro n s hk hid
    rw [hopen]
    rw [view_identifier_startNode k r p hcur] at hid
    split_ifs at hid with hn
    rw [view_kind_startNode k r p hcur, if_neg hn] at hk
    obtain ⟨hno, hslice⟩ := h.named n s hk hid
    rw [hrange, if_neg hn]
    exact ⟨hnot_new hn hno, hslice⟩

/-- Closing the innermost open node at an offset past every range written, within the text,
keeps the placement. -/
theorem Placed.finishNode (h : b.Placed text) {q : Nat}
    (hq : ∀ n : NodeId, n.idx < b.nodes.size → (b.view.range n).stop ≤ q)
    (hlen : q ≤ Text.byteSize text.toList) {b' : TreeBuilder} {id : NodeId}
    (hf : b.finishNode q = .ok (b', id)) : b'.Placed text := by
  have hinv := h.inv.finishNode hf
  cases hop : b.openNodes with
  | nil => simp [TreeBuilder.finishNode, hop] at hf
  | cons top rest =>
    rw [finishNode_of_openNodes b hop] at hf
    obtain ⟨hb', -⟩ := Prod.mk.inj (Except.ok.inj hf)
    have htop : top.idx < b.nodes.size := h.inv.open_lt top (by rw [hop]; exact List.mem_cons_self)
    have hline := h.line
    rw [hop] at hline
    obtain ⟨htop_parent, hrest⟩ := hline
    -- only the closed node changes, and only where it stops
    have hview : b'.view = (b.modify top (Node.closedAt q)).view := by rw [← hb']; rfl
    have hopen : b'.openNodes = rest := by rw [← hb']
    have hsize : b'.nodes.size = b.nodes.size := by rw [← hb']; simp [TreeBuilder.modify]
    have hparent : ∀ n, b'.view.parent n = b.view.parent n := fun n => by
      rw [hview]; exact b.view_parent_closedAt top q n
    have hrange : ∀ n, b'.view.range n =
        if top = n then ⟨(b.view.range n).start, max q (b.view.range n).start⟩ else b.view.range n := by
      intro n
      simp only [hview, SyntaxTree.range, view_node_modify]
      by_cases hn : top = n
      · subst hn
        simp [htop, Node.closedAt]
      · simp [hn]
    have hnot_rest : ∀ {n}, n ∉ b.openNodes → n ∉ rest := fun hn hr => hn (by
      rw [hop]; exact List.mem_cons_of_mem _ hr)
    have hne_top : ∀ {n}, n ∉ b.openNodes → top ≠ n := fun hn ht => hn (by
      rw [← ht, hop]; exact List.mem_cons_self)
    refine ⟨hinv, by rw [hopen]; exact hrest.congr fun n _ => hparent n, ?_, ?_, ?_, ?_⟩
    · intro n hn
      rw [hsize] at hn
      rw [hrange]
      split_ifs with ht
      · subst ht
        have hb := h.bounded top htop
        exact ⟨Nat.le_max_right _ _, Nat.max_le.2 ⟨hlen, Nat.le_trans hb.1 hb.2⟩⟩
      · exact h.bounded n hn
    · intro n p hp
      rw [hparent] at hp
      rw [hrange, hrange, hopen]
      by_cases hn : top = n
      · -- the closed node hangs under the next open node, which stays open
        subst hn
        have hp_rest : p ∈ rest := List.mem_of_mem_head? (htop_parent.symm.trans hp)
        have hpt : top ≠ p := fun he => Nat.lt_irrefl _ (he ▸ h.inv.parent_lt top p hp)
        rw [if_pos rfl, if_neg hpt]
        exact ⟨(h.nested top p hp).1, fun hp' => absurd hp_rest hp'⟩
      · rw [if_neg hn]
        by_cases hpt : top = p
        · -- a child of the closed node is closed and ends before the offset
          subst hpt
          rw [if_pos rfl]
          have hno := h.not_mem_openNodes_of_parent hop hp
          exact ⟨(h.nested n top hp).1, fun _ => ⟨hnot_rest hno,
            Nat.le_trans (hq n (idx_lt_of_parent_eq_some hp)) (Nat.le_max_left _ _)⟩⟩
        · rw [if_neg hpt]
          obtain ⟨hstart, hclosed⟩ := h.nested n p hp
          refine ⟨hstart, fun hpr => ?_⟩
          have hpo : p ∉ b.openNodes := by
            rw [hop]
            intro hmem
            rcases List.mem_cons.1 hmem with he | hmem
            · exact hpt he.symm
            · exact hpr hmem
          obtain ⟨hno, hstop⟩ := hclosed hpo
          exact ⟨hnot_rest hno, hstop⟩
    · intro p
      rw [hview, b.view_children_closedAt top q, ← hview, hopen]
      refine (h.ordered p).imp fun a c hac => ⟨hnot_rest hac.1, ?_⟩
      rw [hrange, hrange, if_neg (hne_top hac.1)]
      split_ifs <;> exact hac.2
    · intro n s hk hid
      rw [hview] at hk hid
      rw [b.view_kind_closedAt] at hk
      rw [b.view_identifier_closedAt] at hid
      obtain ⟨hno, hslice⟩ := h.named n s hk hid
      rw [hrange, if_neg (hne_top hno), hopen]
      exact ⟨hnot_rest hno, hslice⟩

/-- A leaf is a node opened at `range.start` and closed at `range.stop` at once: the builder
gains it as last child of the innermost open node and keeps its open nodes. -/
theorem leaf_eq (k : SyntaxKind) (r : Role) (range : Range) :
    b.leaf k r range = ({ (b.startNode k r range.start).1.modify ⟨b.nodes.size⟩
      (Node.closedAt range.stop) with openNodes := b.openNodes }, ⟨b.nodes.size⟩) := by
  have hopen := b.startNode_openNodes k r range.start
  unfold TreeBuilder.leaf
  generalize hp : b.startNode k r range.start = p at hopen
  obtain ⟨b₁, id₁⟩ := p
  have hid : id₁ = ⟨b.nodes.size⟩ := by
    have := congrArg Prod.snd hp
    simp only [TreeBuilder.startNode] at this
    exact this.symm
  subst hid
  simp only at hopen ⊢
  rw [finishNode_of_openNodes b₁ hopen]

theorem leaf_size (k : SyntaxKind) (r : Role) (range : Range) :
    (b.leaf k r range).1.nodes.size = b.nodes.size + 1 := by
  rw [leaf_eq]
  simp [TreeBuilder.modify, startNode_size]

theorem leaf_openNodes (k : SyntaxKind) (r : Role) (range : Range) :
    (b.leaf k r range).1.openNodes = b.openNodes := by
  rw [leaf_eq]

/-- The new leaf is the last node, with the innermost open node as parent, which gains it as
last child; the other nodes stay as they were. -/
theorem view_node_leaf (hcur : ∀ p, b.current = some p → p.idx < b.nodes.size) (k : SyntaxKind)
    (r : Role) {a c : Nat} (hac : a ≤ c) (n : NodeId) :
    (b.leaf k r ⟨a, c⟩).1.view.node n =
      if n.idx = b.nodes.size then { kind := k, role := r, parent := b.current, range := ⟨a, c⟩ }
      else if b.current = some n then
        { b.view.node n with children := (b.view.node n).children.push ⟨b.nodes.size⟩ }
      else b.view.node n := by
  rw [leaf_eq]
  show ((b.startNode k r a).1.modify ⟨b.nodes.size⟩ (Node.closedAt c)).view.node n = _
  rw [view_node_modify, view_node_startNode b k r a hcur, b.startNode_size]
  by_cases hn : n.idx = b.nodes.size
  · have he : (⟨b.nodes.size⟩ : NodeId) = n := by cases n; simp_all
    simp [hn, he, Node.closedAt, Range.point, Nat.max_eq_left hac]
  · have he : (⟨b.nodes.size⟩ : NodeId) ≠ n := fun he => hn (by rw [← he])
    simp [hn, he]

section leaf

variable (hcur : ∀ p, b.current = some p → p.idx < b.nodes.size) (k : SyntaxKind) (r : Role)
  {a c : Nat} (hac : a ≤ c)
include hcur hac

theorem view_kind_leaf (n : NodeId) :
    (b.leaf k r ⟨a, c⟩).1.view.kind n = if n.idx = b.nodes.size then k else b.view.kind n := by
  simp only [SyntaxTree.kind, view_node_leaf hcur k r hac]
  split_ifs <;> rfl

theorem view_identifier_leaf (n : NodeId) :
    (b.leaf k r ⟨a, c⟩).1.view.identifier n =
      if n.idx = b.nodes.size then none else b.view.identifier n := by
  simp only [SyntaxTree.identifier, view_node_leaf hcur k r hac]
  split_ifs <;> rfl

theorem view_parent_leaf (n : NodeId) :
    (b.leaf k r ⟨a, c⟩).1.view.parent n =
      if n.idx = b.nodes.size then b.current else b.view.parent n := by
  simp only [SyntaxTree.parent, view_node_leaf hcur k r hac]
  split_ifs <;> rfl

theorem view_range_leaf (n : NodeId) :
    (b.leaf k r ⟨a, c⟩).1.view.range n =
      if n.idx = b.nodes.size then ⟨a, c⟩ else b.view.range n := by
  simp only [SyntaxTree.range, view_node_leaf hcur k r hac]
  split_ifs <;> rfl

end leaf

/-- A leaf over text written past every range, within the text, keeps the placement. -/
theorem Placed.leaf (h : b.Placed text) {a c : Nat}
    (ha : ∀ n : NodeId, n.idx < b.nodes.size → (b.view.range n).stop ≤ a) (hac : a ≤ c)
    (hc : c ≤ Text.byteSize text.toList) (k : SyntaxKind) (r : Role) :
    (b.leaf k r ⟨a, c⟩).1.Placed text := by
  have h₁ := h.startNode ha (Nat.le_trans hac hc) k r
  have hrange := view_range_startNode k r a h.inv.current_lt
  have hq : ∀ n : NodeId, n.idx < (b.startNode k r a).1.nodes.size →
      ((b.startNode k r a).1.view.range n).stop ≤ c := by
    intro n hn
    rw [b.startNode_size] at hn
    rw [hrange]
    split_ifs with hnew
    · exact hac
    · exact Nat.le_trans (ha n (by omega)) hac
  rw [leaf_eq]
  exact h₁.finishNode hq hc (finishNode_of_openNodes _ (b.startNode_openNodes k r a) c)

/-- Changing one node's binding, type or modifiers, or setting an identifier that a simple
name spells, keeps the placement. -/
theorem Placed.modify (h : b.Placed text) (id : NodeId) {f : Node → Node}
    (hkind : ∀ nd, (f nd).kind = nd.kind) (hrange : ∀ nd, (f nd).range = nd.range)
    (hparent : ∀ nd, (f nd).parent = nd.parent) (hchildren : ∀ nd, (f nd).children = nd.children)
    (hnamed : ∀ s, b.view.kind id = .simpleName → (f (b.view.node id)).identifier = some s →
      id ∉ b.openNodes ∧ Text.slice text (b.view.range id).start (b.view.range id).stop = s) :
    (b.modify id f).Placed text := by
  have hr : ∀ n, (b.modify id f).view.range n = b.view.range n :=
    view_field_modify b Node.range hrange id
  have hk : ∀ n, (b.modify id f).view.kind n = b.view.kind n := view_field_modify b Node.kind hkind id
  refine ⟨h.inv.modify f hparent hchildren id, h.line.congr fun n _ => view_parent_modify b hparent id n,
    fun n hn => ?_, fun n p hp => ?_, fun p => ?_, fun n s hkn hid => ?_⟩
  · rw [hr]
    exact h.bounded n (by simpa [TreeBuilder.modify] using hn)
  · rw [view_parent_modify b hparent] at hp
    rw [hr, hr]
    exact h.nested n p hp
  · rw [view_children_modify b hchildren]
    refine (h.ordered p).imp fun a c hac => ?_
    rw [hr, hr]
    exact hac
  · rw [hk] at hkn
    rw [hr]
    simp only [SyntaxTree.identifier, view_node_modify] at hid
    split_ifs at hid with hn
    · obtain ⟨rfl, -⟩ := hn
      exact hnamed s hkn hid
    · exact h.named n s hkn hid

theorem Placed.setIdentifier (h : b.Placed text) {n : NodeId} {s : String}
    (hn : b.view.kind n = .simpleName →
      n ∉ b.openNodes ∧ Text.slice text (b.view.range n).start (b.view.range n).stop = s) :
    (b.setIdentifier n s).Placed text :=
  h.modify n (fun _ => rfl) (fun _ => rfl) (fun _ => rfl) (fun _ => rfl) fun _ hk he => by
    cases he
    exact hn hk

/-- Once no node is open, `finish` accepts the nodes of a placed builder. -/
theorem Placed.finish_eq_ok (h : b.Placed text) (hop : b.openNodes = []) (hs : b.nodes.size ≠ 0)
    (file : FileId) : b.finish file text = .ok ⟨file, text, b.nodes⟩ := by
  have hnone : firstMisplaced b.nodes (Text.byteSize text.toList) = none := by
    refine List.findSome?_eq_none_iff.2 fun i hi => ?_
    have hb := h.bounded ⟨i⟩ (List.mem_range.1 hi)
    have hlt : ¬Text.byteSize text.toList < (b.nodes[i]?.getD default).range.stop := Nat.not_lt.2 hb.2
    simp only [hlt, if_false]
    cases hp : (b.nodes[i]?.getD default).parent with
    | none => rfl
    | some p =>
      obtain ⟨hstart, hclosed⟩ := h.nested ⟨i⟩ p hp
      rw [hop] at hclosed
      have hstop := (hclosed List.not_mem_nil).2
      have hcov : (b.view.range p).covers (b.view.range ⟨i⟩) = true := by
        simp only [Range.covers, Bool.and_eq_true, decide_eq_true_eq]
        exact ⟨hstart, hstop⟩
      have hcov' : (b.nodes[p.idx]?.getD default).range.covers (b.nodes[i]?.getD default).range =
        true := hcov
      simp [hcov']
  unfold TreeBuilder.finish
  rw [hop]
  simp [hs, hnone]

end TreeBuilder

end QuickFix
