import QuickFix.Proofs.NodeFrames

/-!
# The layout of a tree written at the end of its text

Rendering writes text only at the end and opens, closes and adds nodes only there. This module
states what such a builder keeps over the text written so far (`TreeBuilder.Layout`) and shows
that each call of the builder keeps it, under the conditions the renderer meets at that call.

Besides the placement of `TreeBuilder.Placed`, the layout says that the first node is the
compilation unit at offset zero with no parent, that every later node hangs under another, that
siblings are strictly apart (some text always stands between two of them), that every offset is a
character boundary, and that the elements of an argument or parameter list are separated by
exactly `", "`. A node may be opened at the end only when its last sibling ends before the end
(`Fresh`), and a list element only when the last element of its list is followed by exactly the
separator (`ListReady`).
-/

namespace QuickFix

namespace Role

/-- The roles of the elements of a list written with separators: arguments and parameters. -/
def IsListed (r : Role) : Prop := r = .argument ∨ r = .parameter

instance : DecidablePred IsListed := fun _ => inferInstanceAs (Decidable (_ ∨ _))

end Role

namespace Text

theorem takeBytes_zero (cs : List Char) : takeBytes cs 0 = [] := by
  cases cs with
  | nil => rfl
  | cons c cs => simp [takeBytes, splitBytes, (Char.utf8Size_pos c).ne']

/-- A slice that holds some text does not end before it starts. -/
theorem le_of_slice_eq {s t : String} {a b : Nat} (h : slice s a b = t) (ht : t ≠ "") : a ≤ b := by
  by_contra hab
  have hz : b - a = 0 := by omega
  rw [slice, sliceBytes, hz, takeBytes_zero] at h
  exact ht (h.symm.trans rfl)

theorem byteSize_le_append (out s : String) :
    byteSize out.toList ≤ byteSize (out ++ s).toList := by
  simp [byteSize_append]

end Text

theorem IsCharBoundary.append {cs : List Char} {n : Nat} (h : IsCharBoundary cs n)
    (ds : List Char) : IsCharBoundary (cs ++ ds) n := by
  obtain ⟨pre, suf, rfl, rfl⟩ := h
  exact ⟨pre, suf ++ ds, by simp, rfl⟩

theorem isCharBoundary_byteSize (cs : List Char) : IsCharBoundary cs (Text.byteSize cs) :=
  ⟨cs, [], by simp, rfl⟩

/-- A change of a node that touches only its binding, expression type or modifiers. -/
structure Node.DataChange (f : Node → Node) : Prop where
  kind : ∀ nd, (f nd).kind = nd.kind
  range : ∀ nd, (f nd).range = nd.range
  parent : ∀ nd, (f nd).parent = nd.parent
  children : ∀ nd, (f nd).children = nd.children
  role : ∀ nd, (f nd).role = nd.role
  identifier : ∀ nd, (f nd).identifier = nd.identifier

/-- A binding that a node of kind `k` may carry: of the kinds that declare what they bind, only
type bodies declare types. -/
def Binding.FitsKind (x : Binding) (k : SyntaxKind) : Prop :=
  SyntaxTree.isDeclarationKind k = true → ∀ ty, x = .type ty → k.isTypeBody = true

/-- A binding that is no type fits every kind. -/
theorem Binding.fitsKind_of_ne_type {x : Binding} (hx : ∀ ty, x ≠ .type ty) (k : SyntaxKind) :
    x.FitsKind k :=
  fun _ ty he => absurd he (hx ty)

/-- Every binding fits a kind that declares nothing. -/
theorem Binding.fitsKind_of_not_declaration {k : SyntaxKind}
    (hk : SyntaxTree.isDeclarationKind k = false) (x : Binding) : x.FitsKind k :=
  fun hd => absurd hd (by rw [hk]; decide)

/-- Every binding fits a type body. -/
theorem Binding.fitsKind_of_isTypeBody {k : SyntaxKind} (hk : k.isTypeBody = true) (x : Binding) :
    x.FitsKind k :=
  fun _ _ _ => hk

/-- A node whose binding fits its kind. -/
def Node.BindingFits (nd : Node) : Prop := ∀ x, nd.binding = some x → x.FitsKind nd.kind

/-- A change that keeps the kind and the binding of a node keeps them fitting. -/
theorem Node.BindingFits.congr {nd nd' : Node} (h : nd.BindingFits) (hk : nd'.kind = nd.kind)
    (hb : nd'.binding = nd.binding) : nd'.BindingFits := fun x hx => by
  rw [hk]
  exact h x (hb ▸ hx)

namespace TreeBuilder

/-- Opening a node keeps the binding of every node fitting its kind: the new one has none. -/
theorem bindingFits_startNode {b : TreeBuilder} (k : SyntaxKind) (r : Role) (s : Nat)
    (hcur : ∀ p, b.current = some p → p.idx < b.nodes.size) (h : ∀ n, (b.view.node n).BindingFits)
    (n : NodeId) : ((b.startNode k r s).1.view.node n).BindingFits := by
  rw [view_node_startNode b k r s hcur n]
  split_ifs
  · intro x hx
    cases hx
  · exact (h n).congr rfl rfl
  · exact h n

/-- Changing one node so that its binding still fits keeps every binding fitting. -/
theorem bindingFits_modify {b : TreeBuilder} (id : NodeId) {f : Node → Node}
    (h : ∀ n, (b.view.node n).BindingFits)
    (hf : (b.view.node id).BindingFits → (f (b.view.node id)).BindingFits) (n : NodeId) :
    ((b.modify id f).view.node n).BindingFits := by
  rw [view_node_modify]
  split_ifs with hc
  · obtain ⟨rfl, -⟩ := hc
    exact hf (h id)
  · exact h n

/-- Writing a leaf keeps every binding fitting. -/
theorem bindingFits_leaf {b : TreeBuilder} (k : SyntaxKind) (r : Role) {a c : Nat}
    (hcur : ∀ p, b.current = some p → p.idx < b.nodes.size) (hac : a ≤ c)
    (h : ∀ n, (b.view.node n).BindingFits) (n : NodeId) :
    ((b.leaf k r ⟨a, c⟩).1.view.node n).BindingFits := by
  rw [b.view_node_leaf hcur k r hac n]
  split_ifs
  · intro x hx
    cases hx
  · exact (h n).congr rfl rfl
  · exact h n

/-- Every child of the innermost open node ends before the end of the text, so a node opened at
the end comes strictly after its siblings. -/
def Fresh (b : TreeBuilder) (out : String) : Prop :=
  ∀ p a, b.current = some p → (b.view.children p).getLast? = some a →
    (b.view.range a).stop < Text.byteSize out.toList

/-- The last element of role `r` under the innermost open node is followed by exactly a separator,
so an element of role `r` opened at the end continues its list. -/
def ListReady (r : Role) (b : TreeBuilder) (out : String) : Prop :=
  r.IsListed → ∀ p a, b.current = some p → (b.view.childrenWithRole p r).getLast? = some a →
    Text.slice out (b.view.range a).stop (Text.byteSize out.toList) = ", "

section startNode

variable {b : TreeBuilder} (k : SyntaxKind) (r : Role) (s : Nat)
  (hcur : ∀ p, b.current = some p → p.idx < b.nodes.size)
include hcur

theorem view_role_startNode (n : NodeId) :
    (b.startNode k r s).1.view.role n = if n.idx = b.nodes.size then r else b.view.role n := by
  simp only [SyntaxTree.role, b.view_node_startNode k r s hcur]
  split_ifs <;> rfl

theorem view_parent_root_startNode (hs : b.nodes.size ≠ 0) :
    (b.startNode k r s).1.view.parent SyntaxTree.root = b.view.parent SyntaxTree.root := by
  have hr : SyntaxTree.root.idx ≠ b.nodes.size := fun h0 => hs (h0.symm.trans rfl)
  rw [view_parent_startNode k r s hcur, if_neg hr]

theorem children_startNode_self (n : NodeId) (hn : n.idx = b.nodes.size) :
    (b.startNode k r s).1.view.children n = [] := by
  have hnc : b.current ≠ some n := fun hc => by have := hcur n hc; omega
  rw [view_children_startNode k r s hcur, if_neg hnc, SyntaxTree.children,
    @view_node_of_le b n (Nat.le_of_eq hn.symm)]
  rfl

end startNode

section leaf

variable {b : TreeBuilder} (hcur : ∀ p, b.current = some p → p.idx < b.nodes.size)
  (k : SyntaxKind) (r : Role) {a c : Nat} (hac : a ≤ c)
include hcur

theorem view_children_leaf (q : NodeId) :
    (b.leaf k r ⟨a, c⟩).1.view.children q =
      if b.current = some q then b.view.children q ++ [⟨b.nodes.size⟩] else b.view.children q := by
  rw [leaf_eq]
  show ((b.startNode k r a).1.modify ⟨b.nodes.size⟩ (Node.closedAt c)).view.children q = _
  rw [view_children_closedAt, view_children_startNode k r a hcur]

include hac in
theorem view_role_leaf (n : NodeId) :
    (b.leaf k r ⟨a, c⟩).1.view.role n = if n.idx = b.nodes.size then r else b.view.role n := by
  simp only [SyntaxTree.role, view_node_leaf hcur k r hac]
  split_ifs <;> rfl

end leaf

/-- Closing a node sets where it stops, never before its start. -/
theorem view_range_closedAt_self (b : TreeBuilder) {n : NodeId} (hn : n.idx < b.nodes.size)
    (q : Nat) : (b.modify n (Node.closedAt q)).view.range n =
      ⟨(b.view.range n).start, max q (b.view.range n).start⟩ := by
  simp only [SyntaxTree.range, view_node_modify, hn, and_self, if_true, Node.closedAt]

theorem view_range_closedAt_ne (b : TreeBuilder) {n m : NodeId} (hne : n ≠ m) (q : Nat) :
    (b.modify n (Node.closedAt q)).view.range m = b.view.range m := by
  simp [SyntaxTree.range, view_node_modify, hne]

theorem view_role_closedAt (b : TreeBuilder) (n : NodeId) (q : Nat) (m : NodeId) :
    (b.modify n (Node.closedAt q)).view.role m = b.view.role m :=
  @view_field_modify b _ Node.role (Node.closedAt q) (fun _ => rfl) n m

/-- The new node joins the list of its role under the innermost open node, at its end. -/
theorem Placed.childrenWithRole_startNode {b : TreeBuilder} {out : String} (h : b.Placed out)
    (k : SyntaxKind) (r : Role) (s : Nat) (q : NodeId) (r' : Role) :
    (b.startNode k r s).1.view.childrenWithRole q r' =
      if b.current = some q ∧ r = r' then b.view.childrenWithRole q r' ++ [⟨b.nodes.size⟩]
      else b.view.childrenWithRole q r' := by
  have hcur := h.inv.current_lt
  have hold : ∀ c ∈ b.view.children q, ((b.startNode k r s).1.view.role c == r') =
      (b.view.role c == r') := fun c hc => by
    rw [view_role_startNode k r s hcur, if_neg (Nat.ne_of_lt (h.idx_lt_of_mem_children hc))]
  unfold SyntaxTree.childrenWithRole
  rw [view_children_startNode k r s hcur]
  by_cases hq : b.current = some q
  · rw [if_pos hq, List.filter_append, List.filter_congr hold]
    by_cases hr : r = r'
    · subst hr
      simp [hq, view_role_startNode k r s hcur]
    · simp [hr, view_role_startNode k r s hcur]
  · simp only [hq, if_false, false_and]
    exact List.filter_congr hold

/-- A change to one node that keeps its children and role keeps every list of children of a
role. -/
theorem view_childrenWithRole_modify (b : TreeBuilder) {f : Node → Node}
    (hchildren : ∀ nd, (f nd).children = nd.children) (hrole : ∀ nd, (f nd).role = nd.role)
    (id q : NodeId) (r : Role) :
    (b.modify id f).view.childrenWithRole q r = b.view.childrenWithRole q r := by
  unfold SyntaxTree.childrenWithRole
  rw [view_children_modify b hchildren]
  exact List.filter_congr fun c _ => by
    rw [show (b.modify id f).view.role c = b.view.role c from
      view_field_modify b Node.role hrole id c]

section setIdentifier

variable (b : TreeBuilder) (n : NodeId) (s : String) (m : NodeId)

/-- Setting an identifier changes nothing but the identifier of one node. -/
theorem view_kind_setIdentifier : (b.setIdentifier n s).view.kind m = b.view.kind m :=
  @view_field_modify b _ Node.kind (fun nd => { nd with identifier := some s }) (fun _ => rfl) n m

theorem view_parent_setIdentifier : (b.setIdentifier n s).view.parent m = b.view.parent m :=
  @view_field_modify b _ Node.parent (fun nd => { nd with identifier := some s }) (fun _ => rfl) n m

theorem view_identifier_setIdentifier :
    (b.setIdentifier n s).view.identifier m =
      if n = m ∧ m.idx < b.nodes.size then some s else b.view.identifier m := by
  simp only [SyntaxTree.identifier, TreeBuilder.setIdentifier, view_node_modify]
  split_ifs <;> rfl

theorem setIdentifier_size : (b.setIdentifier n s).nodes.size = b.nodes.size := by
  simp [TreeBuilder.setIdentifier, TreeBuilder.modify]

end setIdentifier

/-! ### What every call keeps -/

/-- What every call of the builder keeps of the nodes there before it: they stay, with their kind,
role and start, each keeps its children as the first of its new ones, and a node closed stays
closed over the range it had. -/
structure Grows (b b' : TreeBuilder) : Prop where
  size_le : b.nodes.size ≤ b'.nodes.size
  kind : ∀ n : NodeId, n.idx < b.nodes.size → b'.view.kind n = b.view.kind n
  role : ∀ n : NodeId, n.idx < b.nodes.size → b'.view.role n = b.view.role n
  children : ∀ n, b.view.children n <+: b'.view.children n
  start : ∀ n : NodeId, n.idx < b.nodes.size → (b'.view.range n).start = (b.view.range n).start
  closed : ∀ n : NodeId, n.idx < b.nodes.size → n ∉ b.openNodes →
    n ∉ b'.openNodes ∧ b'.view.range n = b.view.range n

namespace Grows

theorem refl (b : TreeBuilder) : Grows b b :=
  ⟨le_rfl, fun _ _ => rfl, fun _ _ => rfl, fun _ => List.prefix_refl _, fun _ _ => rfl,
    fun _ _ ho => ⟨ho, rfl⟩⟩

theorem trans {b₁ b₂ b₃ : TreeBuilder} (h₁ : Grows b₁ b₂) (h₂ : Grows b₂ b₃) : Grows b₁ b₃ :=
  ⟨h₁.size_le.trans h₂.size_le,
    fun n hn => (h₂.kind n (Nat.lt_of_lt_of_le hn h₁.size_le)).trans (h₁.kind n hn),
    fun n hn => (h₂.role n (Nat.lt_of_lt_of_le hn h₁.size_le)).trans (h₁.role n hn),
    fun n => (h₁.children n).trans (h₂.children n),
    fun n hn => (h₂.start n (Nat.lt_of_lt_of_le hn h₁.size_le)).trans (h₁.start n hn),
    fun n hn ho =>
      have h₁n := h₁.closed n hn ho
      have h₂n := h₂.closed n (Nat.lt_of_lt_of_le hn h₁.size_le) h₁n.1
      ⟨h₂n.1, h₂n.2.trans h₁n.2⟩⟩

end Grows

theorem grows_startNode {b : TreeBuilder} (h : b.Inv) (k : SyntaxKind) (r : Role) (s : Nat) :
    Grows b (b.startNode k r s).1 := by
  refine ⟨by rw [b.startNode_size]; omega, fun n hn => ?_, fun n hn => ?_, fun n => ?_,
    fun n hn => ?_, fun n hn ho => ⟨?_, ?_⟩⟩
  · rw [view_kind_startNode k r s h.current_lt, if_neg (Nat.ne_of_lt hn)]
  · rw [view_role_startNode k r s h.current_lt, if_neg (Nat.ne_of_lt hn)]
  · rw [view_children_startNode k r s h.current_lt]
    split_ifs
    · exact List.prefix_append _ _
    · exact List.prefix_refl _
  · rw [view_range_startNode k r s h.current_lt, if_neg (Nat.ne_of_lt hn)]
  · rw [b.startNode_openNodes k r s]
    rintro (_ | ⟨_, ho'⟩)
    · exact Nat.lt_irrefl _ hn
    · exact ho ho'
  · rw [view_range_startNode k r s h.current_lt, if_neg (Nat.ne_of_lt hn)]

/-- A change to one node that keeps its kind, role, range and children keeps what is written. -/
theorem grows_modify (b : TreeBuilder) (id : NodeId) {f : Node → Node}
    (hkind : ∀ nd, (f nd).kind = nd.kind) (hrole : ∀ nd, (f nd).role = nd.role)
    (hrange : ∀ nd, (f nd).range = nd.range)
    (hchildren : ∀ nd, (f nd).children = nd.children) : Grows b (b.modify id f) :=
  ⟨by simp [TreeBuilder.modify], fun n _ => view_field_modify b Node.kind hkind id n,
    fun n _ => view_field_modify b Node.role hrole id n,
    fun n => by simp only [view_children_modify b hchildren, List.prefix_refl],
    fun n _ => congrArg Range.start (view_field_modify b Node.range hrange id n),
    fun n _ ho => ⟨ho, view_field_modify b Node.range hrange id n⟩⟩

/-- Closing the innermost open node keeps what is written; only that node's range changes. -/
theorem grows_closedAt (b : TreeBuilder) (n : NodeId) (q : Nat) {O : List NodeId}
    (hop : b.openNodes = n :: O) :
    Grows b { b.modify n (Node.closedAt q) with openNodes := O } := by
  refine ⟨by simp [TreeBuilder.modify], fun m _ => b.view_kind_closedAt n q m,
    fun m _ => b.view_role_closedAt n q m,
    fun m => by
      show b.view.children m <+: (b.modify n (Node.closedAt q)).view.children m
      simp only [b.view_children_closedAt n q m, List.prefix_refl],
    fun m _ => b.view_start_closedAt n q m, fun m _ ho => ⟨fun hm => ho ?_, ?_⟩⟩
  · rw [hop]
    exact List.mem_cons_of_mem n hm
  · -- the closed node is open, so not this one
    exact b.view_range_closedAt_ne (fun he => ho (by rw [hop, he]; exact List.mem_cons_self)) q

theorem grows_leaf {b : TreeBuilder} (h : b.Inv) (k : SyntaxKind) (r : Role) (range : Range) :
    Grows b (b.leaf k r range).1 := by
  rw [leaf_eq]
  exact (grows_startNode h k r range.start).trans
    (grows_closedAt _ _ _ (b.startNode_openNodes k r range.start))

/-! ### Fresh ends and lists ready to go on -/

theorem Fresh.append {b : TreeBuilder} {out : String} (h : Fresh b out) (s : String) :
    Fresh b (out ++ s) := fun p a hp ha =>
  Nat.lt_of_lt_of_le (h p a hp ha) (Text.byteSize_le_append out s)

/-- A node just opened has no children, so anything opened in it is fresh. -/
theorem fresh_startNode {b : TreeBuilder} (h : b.Inv) (k : SyntaxKind) (r : Role) (s : Nat)
    (out : String) : Fresh (b.startNode k r s).1 out := by
  intro p a hp ha
  have hpn : p = ⟨b.nodes.size⟩ := by
    simpa [current, b.startNode_openNodes] using hp.symm
  subst hpn
  have hnc : b.current ≠ some ⟨b.nodes.size⟩ := fun hc => Nat.lt_irrefl _ (h.current_lt _ hc)
  rw [view_children_startNode k r s h.current_lt, if_neg hnc, SyntaxTree.children,
    @view_node_of_le b ⟨b.nodes.size⟩ (Nat.le_refl _)] at ha
  cases ha

/-- A node just opened has no children, so any list in it starts afresh. -/
theorem listReady_startNode {b : TreeBuilder} (h : b.Inv) (k : SyntaxKind) (r : Role) (s : Nat)
    (r' : Role) (out : String) : ListReady r' (b.startNode k r s).1 out := by
  intro _ p a hp ha
  have hpn : p = ⟨b.nodes.size⟩ := by
    simpa [current, b.startNode_openNodes] using hp.symm
  subst hpn
  have hnc : b.current ≠ some ⟨b.nodes.size⟩ := fun hc => Nat.lt_irrefl _ (h.current_lt _ hc)
  rw [SyntaxTree.childrenWithRole, view_children_startNode k r s h.current_lt, if_neg hnc,
    SyntaxTree.children, @view_node_of_le b ⟨b.nodes.size⟩ (Nat.le_refl _)] at ha
  cases ha

/-- A list with no element yet under the innermost open node is ready for its first. -/
theorem listReady_of_nil {b : TreeBuilder} {r : Role} {out : String}
    (h : ∀ p, b.current = some p → b.view.childrenWithRole p r = []) : ListReady r b out := by
  intro _ p a hp ha
  rw [h p hp] at ha
  cases ha

/-- After a list element that ends the text, the separator makes the list ready for the next. -/
theorem listReady_sep {b : TreeBuilder} {r : Role} {out : String}
    (h : ∀ p a, b.current = some p → (b.view.childrenWithRole p r).getLast? = some a →
      (b.view.range a).stop = Text.byteSize out.toList) : ListReady r b (out ++ ", ") := by
  intro _ p a hp ha
  rw [h p a hp ha]
  exact Text.slice_append_byteSize out ", "

/-- The children of a closed node are closed. -/
theorem Placed.not_mem_openNodes_of_mem_children {b : TreeBuilder} {out : String} (h : b.Placed out)
    {p c : NodeId} (hp : p ∉ b.openNodes) (hc : c ∈ b.view.children p) : c ∉ b.openNodes :=
  ((h.nested c p (((h.inv.linked default "").mem_children p c).1 hc).2).2 hp).1

/-- A change to one node that keeps its kind, range, children and role keeps every frame. -/
theorem framed_modify {b : TreeBuilder} {cs : List Char} {n : NodeId} (id : NodeId)
    {f : Node → Node} (hkind : ∀ nd, (f nd).kind = nd.kind) (hrange : ∀ nd, (f nd).range = nd.range)
    (hchildren : ∀ nd, (f nd).children = nd.children) (hrole : ∀ nd, (f nd).role = nd.role)
    (h : b.view.Framed cs n) : (b.modify id f).view.Framed cs n :=
  SyntaxTree.framed_congr (view_children_modify b hchildren id n)
    (fun c _ => ⟨view_field_modify b Node.range hrange id c, view_field_modify b Node.role hrole id c⟩)
    (view_field_modify b Node.kind hkind id n) (view_field_modify b Node.range hrange id n) h

/-- What a builder that works at the end of the text `out` keeps, with `O` its open nodes,
innermost first: the placement, a first node that is the compilation unit at offset zero with no
parent and under which every later node hangs, siblings strictly apart, offsets on character
boundaries, and list elements separated by exactly `", "`. -/
structure Shape (O : List NodeId) (b : TreeBuilder) (out : String) : Prop where
  placed : b.Placed out
  stack : b.openNodes = O
  attached : ∀ n : NodeId, n.idx < b.nodes.size → n ≠ SyntaxTree.root → b.view.parent n ≠ none
  root : b.nodes.size ≠ 0 → b.view.kind SyntaxTree.root = .compilationUnit ∧
    (b.view.range SyntaxTree.root).start = 0 ∧ b.view.parent SyntaxTree.root = none
  apart : ∀ p, (b.view.children p).IsChain fun a c =>
    a ∉ b.openNodes ∧ (b.view.range a).stop < (b.view.range c).start
  boundary : ∀ n : NodeId, n.idx < b.nodes.size →
    IsCharBoundary out.toList (b.view.range n).start ∧ IsCharBoundary out.toList (b.view.range n).stop
  lists : ∀ p r, r.IsListed → (b.view.childrenWithRole p r).IsChain fun a c =>
    a ∉ b.openNodes ∧ Text.slice out (b.view.range a).stop (b.view.range c).start = ", "

/-- The shape together with the two facts about simple names that rendering keeps: no open node
is a simple name, and a simple name without an identifier names a package or an import; every
closed node has its frame; and every binding fits its node's kind. -/
structure Layout (O : List NodeId) (b : TreeBuilder) (out : String) : Prop extends
    Shape O b out where
  openKind : ∀ n ∈ O, b.view.kind n ≠ .simpleName
  unnamed : ∀ n : NodeId, n.idx < b.nodes.size → b.view.kind n = .simpleName →
    b.view.identifier n = none → ∃ p, b.view.parent n = some p ∧
      (b.view.kind p = .packageDeclaration ∨ b.view.kind p = .importDeclaration)
  frames : ∀ n : NodeId, n.idx < b.nodes.size → n ∉ O → b.view.Framed out.toList n
  typed : ∀ n : NodeId, (b.view.node n).BindingFits

namespace Shape

variable {O : List NodeId} {b : TreeBuilder} {out : String}

theorem stop_le_pos (h : Shape O b out) (n : NodeId) (hn : n.idx < b.nodes.size) :
    (b.view.range n).stop ≤ Text.byteSize out.toList :=
  (h.placed.bounded n hn).2

theorem idx_lt_of_mem (h : Shape O b out) {n : NodeId} (hn : n ∈ O) : n.idx < b.nodes.size :=
  h.placed.inv.open_lt n (h.stack ▸ hn)

theorem size_ne_zero (h : Shape O b out) (hO : O ≠ []) : b.nodes.size ≠ 0 := by
  obtain ⟨n, hn⟩ := List.exists_mem_of_ne_nil O hO
  have := h.idx_lt_of_mem hn
  omega

theorem current_eq (h : Shape O b out) : b.current = O.head? := by
  rw [current, h.stack]

/-- The children of the innermost open node are closed. -/
theorem not_mem_openNodes (h : Shape O b out) {q a : NodeId} (hq : b.current = some q)
    (ha : a ∈ b.view.children q) : a ∉ b.openNodes := by
  have hop : b.openNodes = q :: b.openNodes.tail := by
    cases hb : b.openNodes with
    | nil => simp [current, hb] at hq
    | cons o rest => simp only [current, hb, List.head?_cons, Option.some.injEq] at hq; rw [hq]; rfl
  exact h.placed.not_mem_openNodes_of_parent hop (h.placed.parent_of_mem_children ha)

/-- An open node is the last child of the node it hangs under: once the children of a node
begin with `C ++ [n]` for the innermost open node `n`, they are exactly those. -/
theorem children_eq_of_open {n : NodeId} (h : Shape (n :: O) b out) {p : NodeId}
    {C : List NodeId} (hpre : C ++ [n] <+: b.view.children p) : b.view.children p = C ++ [n] := by
  obtain ⟨E, hE⟩ := hpre
  cases E with
  | nil => simpa using hE.symm
  | cons e E =>
    have hchain := h.apart p
    rw [← hE, List.append_assoc, List.singleton_append] at hchain
    have hopen : n ∈ b.openNodes := by rw [h.stack]; exact List.mem_cons_self
    exact absurd hopen (List.isChain_append_cons_cons.1 hchain).2.1.1

/-- Appending text keeps the shape. -/
theorem append (h : Shape O b out) (s : String) : Shape O b (out ++ s) where
  __ := h
  placed := h.placed.append s
  boundary n hn := by
    rw [String.toList_append]
    exact ⟨(h.boundary n hn).1.append _, (h.boundary n hn).2.append _⟩
  lists p r hr := by
    refine (List.IsChain.iff_mem.1 (h.lists p r hr)).imp fun a c ⟨_, hc, hno, hsep⟩ => ⟨hno, ?_⟩
    have hcb : c.idx < b.nodes.size := h.placed.idx_lt_of_mem_children (List.mem_filter.1 hc).1
    have hc' := h.placed.bounded c hcb
    rw [Text.slice_append_of_le (Text.le_of_slice_eq hsep (by decide)) (Nat.le_trans hc'.1 hc'.2)]
    exact hsep

/-- Text appended at the end ends after every node, so a node opened after it is fresh. -/
theorem fresh_append (h : Shape O b out) {s : String} (hs : s ≠ "") : Fresh b (out ++ s) := by
  intro p a _ ha
  have hlt : a.idx < b.nodes.size :=
    h.placed.idx_lt_of_mem_children (List.mem_of_getLast? ha)
  have hpos : 0 < Text.byteSize s.toList := by
    cases hc : s.toList with
    | nil => exact absurd (String.toList_eq_nil_iff.1 hc) hs
    | cons c cs =>
      have := Char.utf8Size_pos c
      simp only [Text.byteSize_cons]
      omega
  simp only [String.toList_append, Text.byteSize_append]
  have := h.stop_le_pos a hlt
  omega

/-- The shape of the first node, the compilation unit, opened at the start of an empty text. -/
theorem start_root :
    Shape [SyntaxTree.root] (({} : TreeBuilder).startNode .compilationUnit .root 0).1 "" := by
  have hroot : ∀ n : NodeId, n.idx < 1 → n = SyntaxTree.root := fun n hn => by
    cases n
    simp only [SyntaxTree.root, NodeId.mk.injEq] at hn ⊢
    omega
  -- the one node has no children, and no other node exists
  have hchildren : ∀ q, (({} : TreeBuilder).startNode .compilationUnit .root 0).1.view.children q =
      [] := fun q => by
    rcases Nat.lt_or_ge q.idx 1 with hq | hq
    · rw [hroot q hq]
      rfl
    · have hnone : ∀ nd : Node, [nd][q.idx]? = none := fun nd =>
        List.getElem?_eq_none (by simpa using hq)
      simp [view, SyntaxTree.children, SyntaxTree.node, TreeBuilder.startNode, current, hnone]
      rfl
  refine ⟨placed_empty.startNode (fun n hn => absurd hn (Nat.not_lt_zero _)) (Nat.zero_le _) _ _,
    rfl, fun n hn hne => absurd (hroot n hn) hne, fun _ => ⟨rfl, rfl, rfl⟩, fun q => ?_,
    fun n hn => ?_, fun q r _ => ?_⟩
  · rw [hchildren]
    exact List.isChain_nil
  · rw [hroot n hn]
    exact ⟨isCharBoundary_byteSize [], isCharBoundary_byteSize []⟩
  · rw [SyntaxTree.childrenWithRole, hchildren]
    exact List.isChain_nil

/-- Opening a node inside an open node keeps the shape, with the new node innermost, when it
comes after its siblings and, as a list element, continues its list. -/
theorem startNode (h : Shape O b out) (hO : O ≠ []) (k : SyntaxKind) {r : Role}
    (hfresh : Fresh b out) (hready : ListReady r b out) :
    Shape (⟨b.nodes.size⟩ :: O) (b.startNode k r (Text.byteSize out.toList)).1 out := by
  have hcur := h.placed.inv.current_lt
  have hsize := b.startNode_size k r (Text.byteSize out.toList)
  have hkind := view_kind_startNode k r (Text.byteSize out.toList) hcur
  have hparent := view_parent_startNode k r (Text.byteSize out.toList) hcur
  have hrange := view_range_startNode k r (Text.byteSize out.toList) hcur
  have hopen := b.startNode_openNodes k r (Text.byteSize out.toList)
  have hs := h.size_ne_zero hO
  -- a node that was there before is not the new one
  have hold : ∀ {n : NodeId}, n.idx < b.nodes.size → n.idx ≠ b.nodes.size := Nat.ne_of_lt
  have hnot_new : ∀ {n : NodeId}, n.idx < b.nodes.size → n ∉ b.openNodes →
      n ∉ (⟨b.nodes.size⟩ : NodeId) :: b.openNodes := fun hn hno hmem => by
    rcases List.mem_cons.1 hmem with he | hmem
    · exact hold hn (by rw [he])
    · exact hno hmem
  refine ⟨h.placed.startNode (fun n hn => h.stop_le_pos n hn) le_rfl k r,
    by rw [hopen, h.stack], fun n hn hne => ?_, fun _ => ?_, fun q => ?_, fun n hn => ?_,
    fun q r' hr' => ?_⟩
  · rw [hparent]
    split_ifs with hnew
    · rw [h.current_eq]
      cases O with
      | nil => exact absurd rfl hO
      | cons o rest => simp
    · exact h.attached n (by omega) hne
  · have hr : SyntaxTree.root.idx ≠ b.nodes.size := fun h0 => hs (h0.symm.trans rfl)
    rw [hkind, hrange, hparent, if_neg hr, if_neg hr, if_neg hr]
    exact h.root hs
  · rw [view_children_startNode k r _ hcur, hopen]
    -- the old children keep their order: none of them is the new node
    have hchain : (b.view.children q).IsChain fun a c =>
        a ∉ (⟨b.nodes.size⟩ : NodeId) :: b.openNodes ∧
          ((b.startNode k r (Text.byteSize out.toList)).1.view.range a).stop <
            ((b.startNode k r (Text.byteSize out.toList)).1.view.range c).start := by
      refine (List.IsChain.iff_mem.1 (h.apart q)).imp fun a c ⟨ha, hc, hno, hlt⟩ => ?_
      have ha' := h.placed.idx_lt_of_mem_children ha
      rw [hrange, hrange, if_neg (hold ha'), if_neg (hold (h.placed.idx_lt_of_mem_children hc))]
      exact ⟨hnot_new ha' hno, hlt⟩
    split_ifs with hq
    · refine hchain.append (List.isChain_singleton _) fun a ha c hc => ?_
      simp only [List.head?_cons, Option.mem_def, Option.some.injEq] at hc
      subst hc
      have ha' := List.mem_of_getLast? ha
      have hab := h.placed.idx_lt_of_mem_children ha'
      rw [hrange, hrange, if_neg (hold hab), if_pos rfl]
      exact ⟨hnot_new hab (h.not_mem_openNodes hq ha'), hfresh q a hq ha⟩
    · exact hchain
  · rw [hsize] at hn
    rw [hrange]
    split_ifs with hnew
    · exact ⟨isCharBoundary_byteSize _, isCharBoundary_byteSize _⟩
    · exact h.boundary n (by omega)
  · rw [h.placed.childrenWithRole_startNode, hopen]
    have hmem : ∀ {c}, c ∈ b.view.childrenWithRole q r' → c ∈ b.view.children q :=
      fun hc => (List.mem_filter.1 hc).1
    have hchain : (b.view.childrenWithRole q r').IsChain fun a c =>
        a ∉ (⟨b.nodes.size⟩ : NodeId) :: b.openNodes ∧
          Text.slice out ((b.startNode k r (Text.byteSize out.toList)).1.view.range a).stop
            ((b.startNode k r (Text.byteSize out.toList)).1.view.range c).start = ", " := by
      refine (List.IsChain.iff_mem.1 (h.lists q r' hr')).imp fun a c ⟨ha, hc, hno, hsep⟩ => ?_
      have ha' := h.placed.idx_lt_of_mem_children (hmem ha)
      rw [hrange, hrange, if_neg (hold ha'),
        if_neg (hold (h.placed.idx_lt_of_mem_children (hmem hc)))]
      exact ⟨hnot_new ha' hno, hsep⟩
    split_ifs with hq
    · obtain ⟨hq, rfl⟩ := hq
      refine hchain.append (List.isChain_singleton _) fun a ha c hc => ?_
      simp only [List.head?_cons, Option.mem_def, Option.some.injEq] at hc
      subst hc
      have ha' := hmem (List.mem_of_getLast? ha)
      have hab := h.placed.idx_lt_of_mem_children ha'
      rw [hrange, hrange, if_neg (hold hab), if_pos rfl]
      exact ⟨hnot_new hab (h.not_mem_openNodes hq ha'), hready hr' q a hq ha⟩
    · exact hchain

/-- Closing the innermost open node at the end of the text keeps the shape of the nodes around
it. -/
theorem finishNode {n : NodeId} (h : Shape (n :: O) b out) :
    Shape O { b.modify n (Node.closedAt (Text.byteSize out.toList)) with openNodes := O } out := by
  have hview : ({ b.modify n (Node.closedAt (Text.byteSize out.toList)) with openNodes := O } :
      TreeBuilder).view = (b.modify n (Node.closedAt (Text.byteSize out.toList))).view := rfl
  have hn : n.idx < b.nodes.size := h.idx_lt_of_mem List.mem_cons_self
  have hsize : (b.modify n (Node.closedAt (Text.byteSize out.toList))).nodes.size =
      b.nodes.size := by simp [TreeBuilder.modify]
  have hparent := b.view_parent_closedAt n (Text.byteSize out.toList)
  have hstart := b.view_start_closedAt n (Text.byteSize out.toList)
  -- only the closed node changes, and only where it stops
  have hrange : ∀ m, n ≠ m →
      (b.modify n (Node.closedAt (Text.byteSize out.toList))).view.range m = b.view.range m := by
    intro m hm
    simp [SyntaxTree.range, view_node_modify, hm]
  have hstop : ((b.modify n (Node.closedAt (Text.byteSize out.toList))).view.range n).stop =
      max (Text.byteSize out.toList) (b.view.range n).start := by
    simp [SyntaxTree.range, view_node_modify, hn, Node.closedAt]
  have hne : ∀ {a}, a ∉ b.openNodes → n ≠ a := fun ha he => ha (by
    rw [← he, h.stack]; exact List.mem_cons_self)
  have hnot_rest : ∀ {a}, a ∉ b.openNodes → a ∉ O := fun ha hr => ha (by
    rw [h.stack]; exact List.mem_cons_of_mem _ hr)
  refine ⟨h.placed.finishNode h.stop_le_pos le_rfl (finishNode_of_openNodes b h.stack _), rfl,
    fun m hm hne' => ?_, fun hs => ?_, fun q => ?_, fun m hm => ?_, fun q r hr => ?_⟩
  · rw [hview, hparent]
    exact h.attached m (hsize ▸ hm) hne'
  · obtain ⟨hk, hs0, hp⟩ := h.root (hsize ▸ hs)
    rw [hview, b.view_kind_closedAt, hstart, hparent]
    exact ⟨hk, hs0, hp⟩
  · rw [hview, b.view_children_closedAt n]
    refine (h.apart q).imp fun a c hac => ⟨hnot_rest hac.1, ?_⟩
    rw [hrange a (hne hac.1), hstart]
    exact hac.2
  · rw [hsize] at hm
    rw [hview]
    by_cases hmn : n = m
    · subst hmn
      refine ⟨by rw [hstart]; exact (h.boundary n hn).1, ?_⟩
      rw [hstop]
      rcases Nat.le_total (Text.byteSize out.toList) (b.view.range n).start with hle | hle
      · rw [Nat.max_eq_right hle]
        exact (h.boundary n hn).1
      · rw [Nat.max_eq_left hle]
        exact isCharBoundary_byteSize _
    · rw [hrange m hmn]
      exact h.boundary m hm
  · rw [hview, @view_childrenWithRole_modify b (Node.closedAt (Text.byteSize out.toList))
      (fun _ => rfl) (fun _ => rfl)]
    refine (h.lists q r hr).imp fun a c hac => ⟨hnot_rest hac.1, ?_⟩
    rw [hrange a (hne hac.1), hstart]
    exact hac.2

/-- A node over text just written, opened and closed at once after its siblings and continuing
its list, keeps the shape. -/
theorem leaf (h : Shape O b out) (hO : O ≠ []) (k : SyntaxKind) {r : Role} (hfresh : Fresh b out)
    (hready : ListReady r b out) (s : String) :
    Shape O (b.leaf k r ⟨Text.byteSize out.toList, Text.byteSize (out ++ s).toList⟩).1
      (out ++ s) := by
  rw [leaf_eq, h.stack]
  exact ((h.startNode hO k hfresh hready).append s).finishNode

/-- A change to one node that keeps its kind, range, parent, children and role keeps the shape,
once the builder stays placed. -/
theorem modify (h : Shape O b out) (id : NodeId) {f : Node → Node}
    (hkind : ∀ nd, (f nd).kind = nd.kind) (hrange : ∀ nd, (f nd).range = nd.range)
    (hparent : ∀ nd, (f nd).parent = nd.parent) (hchildren : ∀ nd, (f nd).children = nd.children)
    (hrole : ∀ nd, (f nd).role = nd.role) (hplaced : (b.modify id f).Placed out) :
    Shape O (b.modify id f) out := by
  have hk : ∀ n, (b.modify id f).view.kind n = b.view.kind n := view_field_modify b Node.kind hkind id
  have hr : ∀ n, (b.modify id f).view.range n = b.view.range n :=
    view_field_modify b Node.range hrange id
  have hp : ∀ n, (b.modify id f).view.parent n = b.view.parent n := view_parent_modify b hparent id
  have hsize : (b.modify id f).nodes.size = b.nodes.size := by simp [TreeBuilder.modify]
  refine ⟨hplaced, h.stack, fun n hn hne => ?_, fun hs => ?_, fun q => ?_, fun n hn => ?_,
    fun q r hr' => ?_⟩
  · rw [hp]
    exact h.attached n (hsize ▸ hn) hne
  · rw [hk, hr, hp]
    exact h.root (hsize ▸ hs)
  · rw [view_children_modify b hchildren]
    refine (h.apart q).imp fun a c hac => ?_
    rw [hr, hr]
    exact hac
  · rw [hr]
    exact h.boundary n (hsize ▸ hn)
  · rw [view_childrenWithRole_modify b hchildren hrole]
    refine (h.lists q r hr').imp fun a c hac => ?_
    rw [hr, hr]
    exact hac

end Shape

namespace Layout

variable {O : List NodeId} {b : TreeBuilder} {out : String}

/-- Appending text keeps the layout. -/
theorem append (h : Layout O b out) (s : String) : Layout O b (out ++ s) := by
  refine ⟨h.toShape.append s, h.openKind, h.unnamed, fun n hn ho => ?_, h.typed⟩
  rw [String.toList_append]
  exact (h.frames n hn ho).append s.toList

/-- The layout of the first node, the compilation unit, opened at the start of an empty text. -/
theorem start_root :
    Layout [SyntaxTree.root] (({} : TreeBuilder).startNode .compilationUnit .root 0).1 "" := by
  have hroot : ∀ n : NodeId, n.idx < 1 → n = SyntaxTree.root := fun n hn => by
    cases n
    simp only [SyntaxTree.root, NodeId.mk.injEq] at hn ⊢
    omega
  refine ⟨Shape.start_root, fun n hn => ?_, fun n hn hk => ?_, fun n hn ho => ?_,
    bindingFits_startNode _ _ _ (fun p hp => by cases hp) (fun n x hx => ?_)⟩
  · rw [List.mem_singleton.1 hn]
    decide
  · rw [hroot n hn] at hk
    exact absurd hk (by decide)
  · rw [hroot n hn] at ho
    exact absurd (List.mem_singleton_self _) ho
  · -- the empty builder has no node with a binding
    cases hx

/-- Opening a node that is no simple name inside an open node keeps the layout, with the new node
innermost, when it comes after its siblings and, as a list element, continues its list. -/
theorem startNode (h : Layout O b out) (hO : O ≠ []) {k : SyntaxKind} (hk : k ≠ .simpleName)
    {r : Role} (hfresh : Fresh b out) (hready : ListReady r b out) :
    Layout (⟨b.nodes.size⟩ :: O) (b.startNode k r (Text.byteSize out.toList)).1 out := by
  have hcur := h.placed.inv.current_lt
  have hkind := view_kind_startNode k r (Text.byteSize out.toList) hcur
  have hparent := view_parent_startNode k r (Text.byteSize out.toList) hcur
  have hold : ∀ {n : NodeId}, n.idx < b.nodes.size → n.idx ≠ b.nodes.size := Nat.ne_of_lt
  refine ⟨h.toShape.startNode hO k hfresh hready, fun n hn => ?_, fun n hn hkn hid => ?_,
    fun n hn ho => ?_, bindingFits_startNode k r _ hcur h.typed⟩
  · rw [hkind]
    rcases List.mem_cons.1 hn with rfl | hn
    · rw [if_pos rfl]
      exact hk
    · rw [if_neg (hold (h.idx_lt_of_mem hn))]
      exact h.openKind n hn
  · rw [b.startNode_size] at hn
    rw [hkind] at hkn
    rw [view_identifier_startNode k r _ hcur] at hid
    split_ifs at hkn with hnew
    · exact absurd hkn hk
    rw [if_neg hnew] at hid
    obtain ⟨p, hp, hpk⟩ := h.unnamed n (by omega) hkn hid
    have hpold := hold (Nat.lt_trans (h.placed.inv.parent_lt n p hp) (by omega))
    refine ⟨p, by rw [hparent, if_neg hnew]; exact hp, ?_⟩
    rw [hkind, if_neg hpold]
    exact hpk
  · -- a closed node was there before, and neither it nor its children changed
    have hno : n ∉ O := fun hm => ho (List.mem_cons_of_mem _ hm)
    have hn' : n.idx < b.nodes.size := by
      rw [b.startNode_size] at hn
      rcases Nat.lt_succ_iff_lt_or_eq.1 hn with hlt | heq
      · exact hlt
      · exact absurd (List.mem_cons.2 (.inl (by cases n; simp_all))) ho
    have hnc : b.current ≠ some n := fun hc => hno (List.mem_of_mem_head? (h.current_eq ▸ hc))
    refine SyntaxTree.framed_congr ?_ (fun c hc => ?_) ?_ ?_ (h.frames n hn' hno)
    · rw [view_children_startNode k r _ hcur, if_neg hnc]
    · have hc' := hold (h.placed.idx_lt_of_mem_children hc)
      rw [view_range_startNode k r _ hcur, if_neg hc', view_role_startNode k r _ hcur, if_neg hc']
      exact ⟨rfl, rfl⟩
    · rw [hkind, if_neg (hold hn')]
    · rw [view_range_startNode k r _ hcur, if_neg (hold hn')]

/-- Closing the innermost open node at the end of the text keeps the layout of the nodes around
it. -/
theorem finishNode {n : NodeId} (h : Layout (n :: O) b out)
    (hframe : (b.modify n (Node.closedAt (Text.byteSize out.toList))).view.Framed out.toList n) :
    Layout O { b.modify n (Node.closedAt (Text.byteSize out.toList)) with openNodes := O } out := by
  have hview : ({ b.modify n (Node.closedAt (Text.byteSize out.toList)) with openNodes := O } :
      TreeBuilder).view = (b.modify n (Node.closedAt (Text.byteSize out.toList))).view := rfl
  have hsize : (b.modify n (Node.closedAt (Text.byteSize out.toList))).nodes.size =
      b.nodes.size := by simp [TreeBuilder.modify]
  refine ⟨h.toShape.finishNode, fun m hm => ?_, fun m hm hk hid => ?_, fun m hm ho => ?_,
    bindingFits_modify n h.typed fun hb => hb.congr rfl rfl⟩
  · rw [hview, b.view_kind_closedAt]
    exact h.openKind m (List.mem_cons_of_mem n hm)
  · rw [hview, b.view_kind_closedAt] at hk
    rw [hview, b.view_identifier_closedAt] at hid
    obtain ⟨p, hp, hpk⟩ := h.unnamed m (hsize ▸ hm) hk hid
    exact ⟨p, by rw [hview, b.view_parent_closedAt]; exact hp,
      by rw [hview, b.view_kind_closedAt]; exact hpk⟩
  · rw [hview]
    by_cases hnm : n = m
    · exact hnm ▸ hframe
    -- another closed node: its children are closed too, so none of them is the one closed now
    have hmo : m ∉ n :: O := fun hm' => (List.mem_cons.1 hm').elim (fun he => hnm he.symm) ho
    have hrange : ∀ x, x ∉ b.openNodes →
        (b.modify n (Node.closedAt (Text.byteSize out.toList))).view.range x = b.view.range x :=
      fun x hx => by
        have hnx : n ≠ x := fun he => hx (by rw [h.stack, ← he]; exact List.mem_cons_self)
        simp [SyntaxTree.range, view_node_modify, hnx]
    have hmc : m ∉ b.openNodes := h.stack ▸ hmo
    refine SyntaxTree.framed_congr (b.view_children_closedAt n _ m) (fun c hc => ⟨hrange c
      (h.placed.not_mem_openNodes_of_mem_children hmc hc),
      @view_field_modify b _ Node.role (Node.closedAt _) (fun _ => rfl) n c⟩)
      (b.view_kind_closedAt n _ m) (hrange m hmc) (h.frames m (hsize ▸ hm) hmo)

/-! #### Leaves -/

section leaf

variable (h : Layout O b out) (hO : O ≠ []) (k : SyntaxKind) (r : Role) (s : String)
include h hO

omit hO in
theorem leaf_openKind :
    ∀ n ∈ O, (b.leaf k r ⟨Text.byteSize out.toList, Text.byteSize (out ++ s).toList⟩).1.view.kind n ≠
      .simpleName := by
  intro n hn
  rw [view_kind_leaf h.placed.inv.current_lt k r (Text.byteSize_le_append out s),
    if_neg (Nat.ne_of_lt (h.idx_lt_of_mem hn))]
  exact h.openKind n hn

omit hO in
/-- A simple name opened as a leaf spells the text just written. -/
theorem slice_leaf :
    Text.slice (out ++ s) ((b.leaf k r ⟨Text.byteSize out.toList,
        Text.byteSize (out ++ s).toList⟩).1.view.range ⟨b.nodes.size⟩).start
      ((b.leaf k r ⟨Text.byteSize out.toList,
        Text.byteSize (out ++ s).toList⟩).1.view.range ⟨b.nodes.size⟩).stop = s := by
  rw [view_range_leaf h.placed.inv.current_lt k r (Text.byteSize_le_append out s), if_pos rfl]
  exact Text.slice_append_byteSize out s

omit hO in
/-- A leaf of a kind with no frame keeps the frames of the closed nodes. -/
theorem frames_leaf (hf : k.parenList? = none) :
    ∀ n : NodeId, n.idx < (b.leaf k r ⟨Text.byteSize out.toList,
        Text.byteSize (out ++ s).toList⟩).1.nodes.size → n ∉ O →
      (b.leaf k r ⟨Text.byteSize out.toList,
        Text.byteSize (out ++ s).toList⟩).1.view.Framed (out ++ s).toList n := by
  intro n hn ho
  have hcur := h.placed.inv.current_lt
  have hac := Text.byteSize_le_append out s
  rw [leaf_size] at hn
  by_cases hnew : n.idx = b.nodes.size
  · exact SyntaxTree.framed_of_parenList_eq_none (by rw [view_kind_leaf hcur k r hac, if_pos hnew]; exact hf)
  -- an old closed node: not the leaf's parent, which is open
  have hnc : b.current ≠ some n := fun hc => ho (List.mem_of_mem_head? (h.current_eq ▸ hc))
  have hold := (h.frames n (by omega) ho).append s.toList
  rw [← String.toList_append] at hold
  refine SyntaxTree.framed_congr ?_ (fun c hc => ?_) ?_ ?_ hold
  · rw [view_children_leaf hcur, if_neg hnc]
  · have hc' := Nat.ne_of_lt (h.placed.idx_lt_of_mem_children hc)
    rw [view_range_leaf hcur k r hac, if_neg hc', view_role_leaf hcur k r hac, if_neg hc']
    exact ⟨rfl, rfl⟩
  · rw [view_kind_leaf hcur k r hac, if_neg hnew]
  · rw [view_range_leaf hcur k r hac, if_neg hnew]

/-- A leaf over text just written keeps the layout, if it comes after its siblings, continues its
list, and is no simple name or names the package or import declaration it stands in. -/
theorem leaf (hfresh : Fresh b out) (hready : ListReady r b out)
    (hk : k = .simpleName → ∃ p ∈ O.head?,
      b.view.kind p = .packageDeclaration ∨ b.view.kind p = .importDeclaration)
    (hf : k.parenList? = none) :
    Layout O (b.leaf k r ⟨Text.byteSize out.toList, Text.byteSize (out ++ s).toList⟩).1
      (out ++ s) := by
  have hcur := h.placed.inv.current_lt
  have hac := Text.byteSize_le_append out s
  refine ⟨h.toShape.leaf hO k hfresh hready s, leaf_openKind h k r s, fun n hn hkn hid => ?_,
    frames_leaf h k r s hf, bindingFits_leaf k r hcur hac h.typed⟩
  rw [leaf_size] at hn
  rw [view_kind_leaf hcur k r hac] at hkn
  rw [view_identifier_leaf hcur k r hac] at hid
  rw [view_parent_leaf hcur k r hac]
  by_cases hnew : n.idx = b.nodes.size
  · rw [if_pos hnew] at hkn
    obtain ⟨p, hp, hpk⟩ := hk hkn
    have hpo : p ∈ O := List.mem_of_mem_head? hp
    refine ⟨p, by rw [if_pos hnew, h.current_eq]; exact hp, ?_⟩
    rw [view_kind_leaf hcur k r hac, if_neg (Nat.ne_of_lt (h.idx_lt_of_mem hpo))]
    exact hpk
  · rw [if_neg hnew] at hkn hid
    obtain ⟨p, hp, hpk⟩ := h.unnamed n (by omega) hkn hid
    refine ⟨p, by rw [if_neg hnew]; exact hp, ?_⟩
    rw [view_kind_leaf hcur k r hac,
      if_neg (Nat.ne_of_lt (Nat.lt_trans (h.placed.inv.parent_lt n p hp) (by omega)))]
    exact hpk

/-- A simple name written as a leaf and given its text as identifier keeps the layout. -/
theorem leaf_named (hfresh : Fresh b out) (hready : ListReady r b out) :
    Layout O ((b.leaf .simpleName r ⟨Text.byteSize out.toList,
      Text.byteSize (out ++ s).toList⟩).1.setIdentifier ⟨b.nodes.size⟩ s) (out ++ s) := by
  have hcur := h.placed.inv.current_lt
  have hac := Text.byteSize_le_append out s
  have hshape := h.toShape.leaf hO .simpleName hfresh hready s
  generalize hb' : (b.leaf .simpleName r
    ⟨Text.byteSize out.toList, Text.byteSize (out ++ s).toList⟩).1 = b' at hshape
  -- what the leaf is, read off before the builder is named
  have hkind : ∀ n, b'.view.kind n = if n.idx = b.nodes.size then .simpleName else b.view.kind n :=
    fun n => hb' ▸ view_kind_leaf hcur .simpleName r hac n
  have hident : ∀ n, b'.view.identifier n =
      if n.idx = b.nodes.size then none else b.view.identifier n :=
    fun n => hb' ▸ view_identifier_leaf hcur .simpleName r hac n
  have hparent : ∀ n, b'.view.parent n = if n.idx = b.nodes.size then b.current else b.view.parent n :=
    fun n => hb' ▸ view_parent_leaf hcur .simpleName r hac n
  have hsize : b'.nodes.size = b.nodes.size + 1 := by rw [← hb']; exact leaf_size _ _ _
  have hopen : b'.openNodes = O := by rw [← hb', leaf_openNodes, h.stack]
  have hslice : Text.slice (out ++ s) (b'.view.range ⟨b.nodes.size⟩).start
      (b'.view.range ⟨b.nodes.size⟩).stop = s := hb' ▸ slice_leaf h .simpleName r s
  have hnew_closed : (⟨b.nodes.size⟩ : NodeId) ∉ b'.openNodes := fun hmem => by
    rw [hopen] at hmem
    exact Nat.lt_irrefl _ (h.idx_lt_of_mem hmem)
  have hframes := hb' ▸ frames_leaf h .simpleName r s rfl
  have htyped : ∀ n, (b'.view.node n).BindingFits := hb' ▸ bindingFits_leaf .simpleName r hcur hac h.typed
  refine ⟨hshape.modify ⟨b.nodes.size⟩ (fun _ => rfl) (fun _ => rfl) (fun _ => rfl) (fun _ => rfl)
      (fun _ => rfl) (hshape.placed.setIdentifier fun _ => ⟨hnew_closed, hslice⟩),
    fun n hn => ?_, fun n hn hkn hid => ?_, fun n hn ho =>
      framed_modify _ (fun _ => rfl) (fun _ => rfl) (fun _ => rfl) (fun _ => rfl)
        (hframes n (by rw [setIdentifier_size] at hn; exact hn) ho),
    bindingFits_modify _ htyped fun hb => hb.congr rfl rfl⟩
  · rw [view_kind_setIdentifier, hkind, if_neg (Nat.ne_of_lt (h.idx_lt_of_mem hn))]
    exact h.openKind n hn
  · -- the new name now carries an identifier; every other node is as before
    rw [setIdentifier_size, hsize] at hn
    rw [view_identifier_setIdentifier, hsize] at hid
    have hne : n.idx ≠ b.nodes.size := by
      intro he
      have hn' : (⟨b.nodes.size⟩ : NodeId) = n := by cases n; simp_all
      rw [if_pos ⟨hn', hn⟩] at hid
      cases hid
    rw [if_neg fun hc => hne (by rw [← hc.1]), hident, if_neg hne] at hid
    rw [view_kind_setIdentifier, hkind, if_neg hne] at hkn
    obtain ⟨p, hpn, hpk⟩ := h.unnamed n (by omega) hkn hid
    have hpold : p.idx ≠ b.nodes.size :=
      Nat.ne_of_lt (Nat.lt_trans (h.placed.inv.parent_lt n p hpn) (by omega))
    refine ⟨p, ?_, by rw [view_kind_setIdentifier, hkind, if_neg hpold]; exact hpk⟩
    rw [view_parent_setIdentifier, hparent, if_neg hne]
    exact hpn

end leaf

/-! #### Changing a node in place -/

/-- Setting a binding that fits the node, a type or modifiers keeps the layout. -/
theorem modify_data (h : Layout O b out) (id : NodeId) {f : Node → Node}
    (hkind : ∀ nd, (f nd).kind = nd.kind) (hrange : ∀ nd, (f nd).range = nd.range)
    (hparent : ∀ nd, (f nd).parent = nd.parent) (hchildren : ∀ nd, (f nd).children = nd.children)
    (hrole : ∀ nd, (f nd).role = nd.role) (hident : ∀ nd, (f nd).identifier = nd.identifier)
    (hfits : (b.view.node id).BindingFits → (f (b.view.node id)).BindingFits) :
    Layout O (b.modify id f) out := by
  have hk : ∀ n, (b.modify id f).view.kind n = b.view.kind n := view_field_modify b Node.kind hkind id
  have hi : ∀ n, (b.modify id f).view.identifier n = b.view.identifier n :=
    view_field_modify b Node.identifier hident id
  have hsize : (b.modify id f).nodes.size = b.nodes.size := by simp [TreeBuilder.modify]
  refine ⟨h.toShape.modify id hkind hrange hparent hchildren hrole
      (h.placed.modify id hkind hrange hparent hchildren fun s hk he =>
        h.placed.named id s hk ((hident _).symm.trans he)),
    fun n hn => ?_, fun n hn hkn hid => ?_, fun n hn ho =>
      framed_modify id hkind hrange hchildren hrole (h.frames n (hsize ▸ hn) ho),
    bindingFits_modify id h.typed hfits⟩
  · rw [hk]
    exact h.openKind n hn
  · rw [hk] at hkn
    rw [hi] at hid
    obtain ⟨p, hpn, hpk⟩ := h.unnamed n (hsize ▸ hn) hkn hid
    exact ⟨p, by rw [view_parent_modify b hparent]; exact hpn, by rw [hk]; exact hpk⟩

/-- Setting an identifier keeps the layout, on a node that is no simple name or on a closed
simple name that spells it. -/
theorem setIdentifier (h : Layout O b out) {n : NodeId} {s : String}
    (hn : b.view.kind n = .simpleName →
      n ∉ O ∧ Text.slice out (b.view.range n).start (b.view.range n).stop = s) :
    Layout O (b.setIdentifier n s) out := by
  refine ⟨h.toShape.modify n (fun _ => rfl) (fun _ => rfl) (fun _ => rfl) (fun _ => rfl)
      (fun _ => rfl) (h.placed.setIdentifier (by rw [h.stack]; exact hn)),
    fun m hm => ?_, fun m hm hkm hid => ?_, fun m hm ho =>
      framed_modify n (fun _ => rfl) (fun _ => rfl) (fun _ => rfl) (fun _ => rfl)
        (h.frames m (setIdentifier_size b n s ▸ hm) ho),
    bindingFits_modify n h.typed fun hb => hb.congr rfl rfl⟩
  · rw [view_kind_setIdentifier]
    exact h.openKind m hm
  · rw [view_kind_setIdentifier] at hkm
    rw [setIdentifier_size] at hm
    -- the node given an identifier is not one without
    rw [view_identifier_setIdentifier] at hid
    split_ifs at hid
    obtain ⟨p, hpn, hpk⟩ := h.unnamed m hm hkm hid
    exact ⟨p, by rw [view_parent_setIdentifier]; exact hpn,
      by rw [view_kind_setIdentifier]; exact hpk⟩

end Layout

/-! ### Changes of data -/

/-- Builders that differ by changes of bindings that fit their nodes, expression types or
modifiers, and by identifiers given to nodes that are no simple names. -/
inductive Retouched : TreeBuilder → TreeBuilder → Prop
  | refl (b : TreeBuilder) : Retouched b b
  | modify {b b' : TreeBuilder} (h : Retouched b b') (id : NodeId) {f : Node → Node}
      (hf : Node.DataChange f)
      (hfits : (b'.view.node id).BindingFits → (f (b'.view.node id)).BindingFits) :
      Retouched b (b'.modify id f)
  | setIdentifier {b b' : TreeBuilder} (h : Retouched b b') {n : NodeId}
      (hn : b'.view.kind n ≠ .simpleName) (s : String) : Retouched b (b'.setIdentifier n s)

namespace Retouched

variable {b b' : TreeBuilder}

/-- What a retouched builder keeps of every node: all but its data. -/
theorem node (h : Retouched b b') (n : NodeId) :
    b'.view.kind n = b.view.kind n ∧ b'.view.range n = b.view.range n ∧
      b'.view.parent n = b.view.parent n ∧ b'.view.children n = b.view.children n ∧
      b'.view.role n = b.view.role n := by
  induction h with
  | refl => exact ⟨rfl, rfl, rfl, rfl, rfl⟩
  | modify _ id hf _ ih =>
    obtain ⟨hk, hr, hp, hc, hro⟩ := ih
    exact ⟨(view_field_modify _ Node.kind hf.kind id n).trans hk,
      (view_field_modify _ Node.range hf.range id n).trans hr,
      (view_field_modify _ Node.parent hf.parent id n).trans hp,
      (view_field_modify _ (fun nd => nd.children.toList) (fun nd => by rw [hf.children]) id n).trans hc,
      (view_field_modify _ Node.role hf.role id n).trans hro⟩
  | setIdentifier _ _ s ih =>
    obtain ⟨hk, hr, hp, hc, hro⟩ := ih
    exact ⟨(view_kind_setIdentifier _ _ s n).trans hk,
      (@view_field_modify _ _ Node.range (fun nd => { nd with identifier := some s })
        (fun _ => rfl) _ n).trans hr,
      (view_parent_setIdentifier _ _ s n).trans hp,
      (@view_field_modify _ _ (fun nd => nd.children.toList)
        (fun nd => { nd with identifier := some s }) (fun _ => rfl) _ n).trans hc,
      (@view_field_modify _ _ Node.role (fun nd => { nd with identifier := some s })
        (fun _ => rfl) _ n).trans hro⟩

theorem size (h : Retouched b b') : b'.nodes.size = b.nodes.size := by
  induction h with
  | refl => rfl
  | modify _ id hf _ ih => simpa [TreeBuilder.modify] using ih
  | setIdentifier _ _ s ih => rw [setIdentifier_size]; exact ih

theorem openNodes (h : Retouched b b') : b'.openNodes = b.openNodes := by
  induction h with
  | refl => rfl
  | modify _ id hf _ ih => exact ih
  | setIdentifier _ _ s ih => exact ih

theorem trans {b'' : TreeBuilder} (h : Retouched b b') (h' : Retouched b' b'') :
    Retouched b b'' := by
  induction h' with
  | refl => exact h
  | modify _ id hf hfits ih => exact .modify ih id hf hfits
  | setIdentifier _ hn s ih => exact .setIdentifier ih hn s

theorem grows (h : Retouched b b') : Grows b b' :=
  ⟨h.size.ge, fun n _ => (h.node n).1, fun n _ => (h.node n).2.2.2.2,
    fun n => by simp only [(h.node n).2.2.2.1, List.prefix_refl],
    fun n _ => by rw [(h.node n).2.1], fun n _ ho => ⟨h.openNodes ▸ ho, (h.node n).2.1⟩⟩

theorem childrenWithRole (h : Retouched b b') (p : NodeId) (r : Role) :
    b'.view.childrenWithRole p r = b.view.childrenWithRole p r := by
  unfold SyntaxTree.childrenWithRole
  rw [(h.node p).2.2.2.1]
  exact List.filter_congr fun c _ => by rw [(h.node c).2.2.2.2]

theorem current (h : Retouched b b') : b'.current = b.current := by
  rw [TreeBuilder.current, h.openNodes, TreeBuilder.current]

theorem fresh {out : String} (h : Retouched b b') (hf : Fresh b out) : Fresh b' out := by
  intro p a hp ha
  rw [(h.node p).2.2.2.1] at ha
  rw [(h.node a).2.1]
  exact hf p a (h.current ▸ hp) ha

theorem listReady {r : Role} {out : String} (h : Retouched b b') (hr : ListReady r b out) :
    ListReady r b' out := by
  intro hl p a hp ha
  rw [h.childrenWithRole] at ha
  rw [(h.node a).2.1]
  exact hr hl p a (h.current ▸ hp) ha

/-- Changes of data keep the layout. -/
theorem layout {O : List NodeId} {out : String} (h : Retouched b b') (hl : Layout O b out) :
    Layout O b' out := by
  induction h with
  | refl => exact hl
  | modify _ id hf hfits ih =>
    exact ih.modify_data id hf.kind hf.range hf.parent hf.children hf.role hf.identifier hfits
  | setIdentifier _ hn s ih => exact ih.setIdentifier fun hk => absurd hk hn

end Retouched

end TreeBuilder

end QuickFix
