import QuickFix.Proofs.SessionFinish

/-!
# Qualifications apart from each other

Qualifying a name with `this` or with its declaring class, removing the `this.` before a field or
a call, and replacing a qualifier that is neither a call nor an instance creation by the name of
a type, each rewrite one node: the name, the field access, the receiver of the call, or the
qualifier. Alone, such an operation makes one edit (`Operation.soloEdit`): the name `n` becomes
the qualifier followed by `n`, the access `this.x` becomes `x`, the receiver goes together with
the dot after it and the blanks that follow the dot, and the qualifier becomes the type's name.

A fix made of such operations, whose rewritten nodes are apart in the tree and in the text and
which plan no import, is written as the union of its operations' single edits, in whatever
order the operations come (`change_of_rewrites_apart`). Being apart in the tree is not enough:
a receiver's removal reaches past the receiver, over the dot and the blanks after it, and when
two single edits conflict the fix fails (`change_fails_of_conflict`), as it does for a
rewritten name that starts among those blanks (`change_fails_of_name_after_removed_receiver`).
-/

namespace QuickFix

/-! ### Planning no import -/

namespace ImportPlan

/-- Planning an import that is planned already changes nothing, whatever the group. -/
theorem insertSorted_eq_self {q : String} {g g' : Nat} :
    ∀ {l : List (String × Nat)}, insertSorted q g l = l → insertSorted q g' l = l
  | [], h => by simp [insertSorted] at h
  | (n, k) :: rest, h => by
    unfold insertSorted at h ⊢
    split_ifs at h ⊢ with h₁ h₂
    · rfl
    · -- a new import in front makes the list longer
      have := congrArg List.length h
      simp at this
    · simp only [List.cons.injEq, true_and] at h ⊢
      exact insertSorted_eq_self h

/-- The name `addImport` gives does not depend on the edit group that asks for it. -/
theorem addImport_fst_group (p : ImportPlan) (b : Bindings) (ty : TypeId) (g g' : Nat) :
    (p.addImport b ty g).1 = (p.addImport b ty g').1 := by
  unfold addImport
  dsimp only
  split_ifs <;> rfl

/-- A type that needs no new import for one group needs none for another. -/
theorem addImport_snd_group {p : ImportPlan} {b : Bindings} {ty : TypeId} {g g' : Nat}
    (h : (p.addImport b ty g).2 = p) : (p.addImport b ty g').2 = p := by
  unfold addImport at h ⊢
  dsimp only at h ⊢
  split_ifs at h ⊢ <;> try rfl
  -- the import is planned already, under some group
  have hadded := congrArg ImportPlan.added h
  dsimp only at hadded ⊢
  rw [insertSorted_eq_self hadded]

/-- A type whose import is planned already, or needs none, leaves the plan as it is. -/
theorem addImport_snd_eq_of_added {p : ImportPlan} {b : Bindings} {ty : TypeId} {g : Nat}
    (h : (p.addImport b ty g).2.added = p.added) : (p.addImport b ty g).2 = p := by
  unfold addImport at h ⊢
  dsimp only at h ⊢
  split_ifs at h ⊢ <;> try rfl
  -- the last branch plans the import, which was planned already
  simp only at h ⊢
  rw [h]

end ImportPlan

/-! ### The operations and their single edits -/

namespace Operation

/-- What an `AddThisQualifier` writes before the name. -/
def thisPrefix : Option String → String
  | some q => q ++ ".this."
  | none => "this."

/-- The edit an operation that rewrites one node makes when it is alone: the name `n` becomes its
qualifier followed by `n`; a field access becomes its name; a receiver is removed over its
removal range; a qualifier that is neither a call nor an instance creation becomes the name of
the type. -/
def soloEdit (s : EditSession) : Operation → Option TextEdit
  | addThisQualifier n _ q => some ⟨s.tree.file, s.tree.range n, thisPrefix q ++ s.tree.source n⟩
  | addStaticQualifier n d _ =>
    some ⟨s.tree.file, s.tree.range n,
      (s.imports.addImport s.bindings d 0).1 ++ "." ++ s.tree.source n⟩
  | removeThisQualifier (.field a) =>
    (s.tree.child a .name).map fun nm => ⟨s.tree.file, s.tree.range a, s.tree.source nm⟩
  | removeThisQualifier (.method i) =>
    (s.tree.child i .expression).map fun r => ⟨s.tree.file, s.removalRange r, ""⟩
  | toStaticAccess q d _ _ =>
    if s.tree.kind q == .methodInvocation || s.tree.kind q == .classInstanceCreation then none
    else some ⟨s.tree.file, s.tree.range q, (s.imports.addImport s.bindings d 0).1⟩
  | _ => none

/-- The change such an operation records on the node it rewrites. -/
def qualifierChange (s : EditSession) : Operation → NodeChange
  | addThisQualifier n _ q => .replace (.concat [.text (thisPrefix q), .node n])
  | addStaticQualifier n d _ =>
    .replace (.concat [.text ((s.imports.addImport s.bindings d 0).1 ++ "."), .node n])
  | removeThisQualifier (.field a) => .replace (.node ((s.tree.child a .name).getD a))
  | toStaticAccess _ d _ _ => .replace (.text (s.imports.addImport s.bindings d 0).1)
  | _ => .remove

/-- A removal of a call's receiver by `op` does not reach into the node `y`: `y` ends before
the receiver or starts after the dot and the blanks that go with the receiver. -/
def ClearOf (s : EditSession) (op : Operation) (y : NodeId) : Prop :=
  ∀ i r, op = removeThisQualifier (.method i) → s.tree.child i .expression = some r →
    (s.tree.range y).stop ≤ (s.tree.range r).start ∨
      (s.removalRange r).stop ≤ (s.tree.range y).start

/-- Two operations change nodes apart in the tree: neither node is below the other. -/
def NodesApart (s : EditSession) (a b : Operation) : Prop :=
  ∃ x y, a.changedNode? s.tree = some x ∧ b.changedNode? s.tree = some y ∧
    x ∉ s.tree.subtree y ∧ y ∉ s.tree.subtree x

/-- Two operations rewrite nodes that are apart: neither node is below the other, and neither
operation's removal reaches into the other's node. -/
def RewritesApart (s : EditSession) (a b : Operation) : Prop :=
  ∃ x y, a.changedNode? s.tree = some x ∧ b.changedNode? s.tree = some y ∧
    x ∉ s.tree.subtree y ∧ y ∉ s.tree.subtree x ∧ a.ClearOf s y ∧ b.ClearOf s x

theorem RewritesApart.symm {s : EditSession} {a b : Operation} (h : RewritesApart s a b) :
    RewritesApart s b a := by
  obtain ⟨x, y, hx, hy, hxy, hyx, hay, hbx⟩ := h
  exact ⟨y, x, hy, hx, hyx, hxy, hbx, hay⟩

theorem RewritesApart.nodesApart {s : EditSession} {a b : Operation} (h : RewritesApart s a b) :
    NodesApart s a b := by
  obtain ⟨x, y, hx, hy, hxy, hyx, -⟩ := h
  exact ⟨x, y, hx, hy, hxy, hyx⟩

/-- Operations on nodes apart change different nodes. -/
theorem NodesApart.changedNode_ne {s : EditSession} (h : s.tree.WellFormed) {a b : Operation}
    (hab : NodesApart s a b) : a.changedNode? s.tree ≠ b.changedNode? s.tree := by
  obtain ⟨x, y, hx, hy, hxy, -⟩ := hab
  rw [hx, hy]
  exact fun hxy' => hxy (Option.some.inj hxy' ▸ h.mem_subtree_self y)

/-- A qualification with the declaring class, or a conversion to a static access, that plans no
new import. -/
def RequestsNoImport (s : EditSession) : Operation → Prop
  | addStaticQualifier _ d _ | toStaticAccess _ d _ _ =>
    (s.imports.addImport s.bindings d 0).2 = s.imports
  | _ => True

/-- An operation that rewrites one node of the unit by itself: it qualifies a name, removes a
`this.` (with the child it needs), or replaces a qualifier that is neither a call nor an instance
creation by the name of a type; and it plans no import. -/
def IsQualifying (s : EditSession) (op : Operation) : Prop :=
  ∃ x e, op.changedNode? s.tree = some x ∧ s.tree.contains x ∧ op.soloEdit s = some e ∧
    op.RequestsNoImport s

/-- A conversion to a static access has a single edit only on a qualifier that is not a call:
the qualifier becomes the name of the type. -/
theorem soloEdit_toStaticAccess {s : EditSession} {q : NodeId} {d : TypeId} {acc : String}
    {k : StaticAccessKind} {e : TextEdit} (he : (toStaticAccess q d acc k).soloEdit s = some e) :
    (s.tree.kind q == .methodInvocation || s.tree.kind q == .classInstanceCreation) = false ∧
      e = ⟨s.tree.file, s.tree.range q, (s.imports.addImport s.bindings d 0).1⟩ := by
  dsimp only [soloEdit] at he
  split_ifs at he with hk
  exact ⟨Bool.eq_false_iff.2 hk, (Option.some.inj he).symm⟩

end Operation

/-! ### Recording the operations -/

namespace EditSession

variable {s : EditSession}

theorem group_beginGroup (d : String) : (s.beginGroup d).group = (s.beginGroup d, s.groups.length) := by
  simp [group, beginGroup]

/-- A type that needs no new import is named by the plan, in whatever group asks for it. -/
theorem addImport_beginGroup {d : String} {ty : TypeId}
    (himp : (s.imports.addImport s.bindings ty 0).2 = s.imports) :
    (s.beginGroup d).addImport ty = ((s.imports.addImport s.bindings ty 0).1, s.beginGroup d) := by
  rw [addImport, group_beginGroup]
  simp only [beginGroup]
  rw [ImportPlan.addImport_fst_group _ _ _ _ 0, ImportPlan.addImport_snd_group himp]

theorem requiredChild_eq_ok_of_child {n c : NodeId} {r : Role} (hn : s.tree.contains n)
    (hc : s.tree.child n r = some c) : s.requiredChild n r = .ok c := by
  simp [requiredChild, hn, hc]

/-- Recording a change of a node of the unit that has none appends it in the current group. -/
theorem record_eq_ok_of_new {n : NodeId} {ch : NodeChange} (hn : s.tree.contains n)
    (hnew : n ∉ s.changedNodes) :
    s.record n ch = .ok { s.group.1 with changes := s.changes ++ [(n, ch, s.group.2)] } := by
  rw [record_eq]
  have hc : s.isChanged n = false := by
    cases hch : s.isChanged n with
    | false => rfl
    | true => exact absurd ((isChanged_iff s n).1 hch) hnew
  simp [hn, hc]

end EditSession

theorem SyntaxTree.mem_children_of_child {t : SyntaxTree} {n c : NodeId} {r : Role}
    (h : t.child n r = some c) : c ∈ t.children n :=
  List.mem_of_find?_eq_some h

theorem SyntaxTree.role_of_child {t : SyntaxTree} {n c : NodeId} {r : Role}
    (h : t.child n r = some c) : t.role c = r := by
  simpa using List.find?_some h

/-- The session after a run of qualifying operations: each begins a group and records its change
in it. -/
def EditSession.withQualifiers (s : EditSession) (ops : List Operation) : EditSession :=
  { s with
    groups := s.groups ++ ops.map Operation.description
    changes := s.changes ++ (ops.zipIdx s.groups.length).filterMap fun p =>
      (p.1.changedNode? s.tree).map fun x => (x, p.1.qualifierChange s, p.2) }

namespace Operation

variable {s : EditSession}

/-- **One qualifying operation.** It begins its group and records its change on the node it
rewrites. -/
theorem apply_of_isQualifying (hwf : s.tree.WellFormed) {op : Operation} (hq : op.IsQualifying s)
    {x : NodeId} (hx : op.changedNode? s.tree = some x) (hnew : x ∉ s.changedNodes) :
    op.apply s = .ok
      { s with
        groups := s.groups ++ [op.description]
        changes := s.changes ++ [(x, op.qualifierChange s, s.groups.length)] } := by
  obtain ⟨x', e, hx', hcx, he, himp⟩ := hq
  rw [hx] at hx'
  cases hx'
  have hgroup := EditSession.group_beginGroup (s := s) op.description
  unfold apply
  cases op with
  | addThisQualifier n ident q =>
    cases hx
    dsimp only
    rw [EditSession.replace, EditSession.record_eq_ok_of_new (s := s.beginGroup _) hcx hnew, hgroup]
    cases q <;> rfl
  | addStaticQualifier n d m =>
    cases hx
    -- the name of the class comes from the plan, which stays as it is
    dsimp only
    rw [EditSession.addImport_beginGroup himp]
    dsimp only
    rw [EditSession.replace, EditSession.record_eq_ok_of_new (s := s.beginGroup _) hcx hnew, hgroup]
    rfl
  | removeThisQualifier target =>
    cases target with
    | field a =>
      cases hx
      obtain ⟨nm, hnm, -⟩ := Option.map_eq_some_iff.1 he
      dsimp only
      rw [EditSession.requiredChild_eq_ok_of_child (s := s.beginGroup _) hcx hnm]
      dsimp only [bind, Except.bind]
      rw [EditSession.replace, EditSession.record_eq_ok_of_new (s := s.beginGroup _) hcx hnew, hgroup]
      simp [qualifierChange, hnm, EditSession.beginGroup]
    | method i =>
      -- the call is a node of the unit: it is the parent of its receiver
      have hrec : s.tree.child i .expression = some x := hx
      have hci : s.tree.contains i := hwf.contains_of_mem_children_parent hcx
        ((hwf.mem_children i x).1 (SyntaxTree.mem_children_of_child hrec)).2
      dsimp only
      rw [EditSession.requiredChild_eq_ok_of_child (s := s.beginGroup _) hci hrec]
      dsimp only [bind, Except.bind]
      rw [EditSession.remove, EditSession.record_eq_ok_of_new (s := s.beginGroup _) hcx hnew, hgroup]
      rfl
  | toStaticAccess q d acc k =>
    cases hx
    -- a qualifier that is not a call hoists nothing
    have hcall := (soloEdit_toStaticAccess he).1
    dsimp only
    simp only [SyntaxTree.kind] at hcall
    simp only [EditSession.beginGroup_tree, SyntaxTree.get?_of_contains hcx, hcall,
      Bool.false_eq_true, ↓reduceIte]
    dsimp only [pure, Except.pure, bind, Except.bind]
    rw [EditSession.addImport_beginGroup himp]
    dsimp only
    rw [EditSession.replace, EditSession.record_eq_ok_of_new (s := s.beginGroup _) hcx hnew, hgroup]
    rfl
  | createMember => cases he
  | changeArguments => cases he
  | changeSignature => cases he

/-- **A run of qualifying operations.** Qualifying operations on distinct nodes that have no
change yet each begin a group and record their change in it. -/
theorem foldlM_apply_of_isQualifying :
    ∀ {s : EditSession} (ops : List Operation), s.tree.WellFormed →
      (∀ op ∈ ops, op.IsQualifying s) →
      ops.Pairwise (fun a b => a.changedNode? s.tree ≠ b.changedNode? s.tree) →
      (∀ op ∈ ops, ∀ x, op.changedNode? s.tree = some x → x ∉ s.changedNodes) →
      ops.foldlM (fun s op => op.apply s) s = .ok (s.withQualifiers ops)
  | s, [], _, _, _, _ => by
    simp only [List.foldlM_nil, EditSession.withQualifiers, List.map_nil, List.append_nil,
      List.zipIdx_nil, List.filterMap_nil]
    rfl
  | s, op :: ops, hwf, hq, hd, hnew => by
    obtain ⟨x, e, hx, -⟩ := hq op List.mem_cons_self
    rw [List.foldlM_cons, apply_of_isQualifying hwf (hq op List.mem_cons_self) hx
      (hnew op List.mem_cons_self x hx)]
    -- the nodes of the later operations are still unchanged
    have hnew' : ∀ op' ∈ ops, ∀ y, op'.changedNode? s.tree = some y →
        y ∉ (s.changes ++ [(x, op.qualifierChange s, s.groups.length)]).map (·.1) := by
      intro op' hop' y hy hmem
      simp only [List.map_append, List.map_cons, List.map_nil, List.mem_append,
        List.mem_singleton] at hmem
      rcases hmem with hmem | rfl
      · exact hnew op' (List.mem_cons_of_mem _ hop') y hy hmem
      · exact List.rel_of_pairwise_cons hd hop' (hx.trans hy.symm)
    refine (foldlM_apply_of_isQualifying
      (s := { s with
        groups := s.groups ++ [op.description]
        changes := s.changes ++ [(x, op.qualifierChange s, s.groups.length)] })
      ops hwf (fun op' h => hq op' (List.mem_cons_of_mem _ h)) hd.of_cons hnew').trans ?_
    simp only [EditSession.withQualifiers, List.zipIdx_cons, List.filterMap_cons, hx,
      Option.map_some, List.append_assoc, List.length_append, List.length_singleton,
      List.map_cons, List.singleton_append]
    rfl

/-! ### Where the single edits reach -/

/-- A single edit rewrites the node its operation changes, or removes that node as the receiver
of a call. -/
theorem soloEdit_range {op : Operation} {x : NodeId} {e : TextEdit}
    (hx : op.changedNode? s.tree = some x) (he : op.soloEdit s = some e) :
    e.file = s.tree.file ∧ (e.range = s.tree.range x ∨
      ∃ i, op = removeThisQualifier (.method i) ∧ s.tree.child i .expression = some x ∧
        e.range = s.removalRange x) := by
  cases op with
  | addThisQualifier n ident q =>
    cases hx
    cases he
    exact ⟨rfl, .inl rfl⟩
  | addStaticQualifier n d m =>
    cases hx
    cases he
    exact ⟨rfl, .inl rfl⟩
  | removeThisQualifier target =>
    cases target with
    | field a =>
      cases hx
      obtain ⟨nm, -, rfl⟩ := Option.map_eq_some_iff.1 he
      exact ⟨rfl, .inl rfl⟩
    | method i =>
      have hrec : s.tree.child i .expression = some x := hx
      obtain ⟨r, hr, rfl⟩ := Option.map_eq_some_iff.1 he
      rw [hrec] at hr
      cases hr
      exact ⟨rfl, .inr ⟨i, rfl, hrec, rfl⟩⟩
  | toStaticAccess q d acc k =>
    cases hx
    rw [(soloEdit_toStaticAccess he).2]
    exact ⟨rfl, .inl rfl⟩
  | createMember => cases he
  | changeArguments => cases he
  | changeSignature => cases he

variable (h : s.tree.WellFormed)
include h

/-- A single edit starts where its node starts, stops at or after the node's end, and fits the
text. -/
theorem soloEdit_spec {op : Operation} {x : NodeId} {e : TextEdit}
    (hx : op.changedNode? s.tree = some x) (he : op.soloEdit s = some e) :
    e.range.start = (s.tree.range x).start ∧ (s.tree.range x).stop ≤ e.range.stop ∧
      Fits s.tree.text.toList e := by
  rcases (soloEdit_range hx he).2 with hr | ⟨i, -, hrec, hr⟩
  · rw [Fits, hr]
    exact ⟨rfl, Nat.le_refl _, h.stop_le_size x, (h.boundary x).1, (h.boundary x).2⟩
  · -- a receiver goes with the dot and the blanks after it
    obtain ⟨hstart, hstop, hb⟩ :=
      EditSession.removalRange_of_role_expression h (SyntaxTree.role_of_child hrec)
    rw [Fits, hr, hstart]
    exact ⟨rfl, hstop, le_byteSize_of_isCharBoundary hb, (h.boundary x).1, hb⟩

/-- A single edit clear of a node that starts after its own node's end stops before that node. -/
theorem soloEdit_stop_le_of_clearOf {op : Operation} {x y : NodeId} {e : TextEdit}
    (hx : op.changedNode? s.tree = some x) (he : op.soloEdit s = some e) (hc : op.ClearOf s y)
    (hlt : (s.tree.range x).stop < (s.tree.range y).start) :
    e.range.stop ≤ (s.tree.range y).start := by
  rcases (soloEdit_range hx he).2 with hr | ⟨i, rfl, hrec, hr⟩
  · rw [hr]
    exact Nat.le_of_lt hlt
  · rcases hc i x rfl hrec with hy | hy
    · -- `y` cannot end before `x` starts: it starts after `x` ends
      have := h.start_le_stop x
      have := h.start_le_stop y
      omega
    · rw [hr]
      exact hy

/-- **Single edits of operations apart.** The single edits of two qualifying operations that
rewrite nodes apart neither conflict nor share a range. -/
theorem soloEdits_apart {a b : Operation} (hqa : a.IsQualifying s) (hqb : b.IsQualifying s)
    (hab : RewritesApart s a b) {ea eb : TextEdit} (hea : a.soloEdit s = some ea)
    (heb : b.soloEdit s = some eb) : ¬ Conflict ea eb ∧ ea.range ≠ eb.range := by
  obtain ⟨x, y, hx, hy, hxy, hyx, hay, hbx⟩ := hab
  obtain ⟨x', -, hx', hcx, -⟩ := hqa
  obtain ⟨y', -, hy', hcy, -⟩ := hqb
  rw [hx] at hx'
  rw [hy] at hy'
  cases hx'
  cases hy'
  obtain ⟨hsa, hla, -⟩ := soloEdit_spec h hx hea
  obtain ⟨hsb, hlb, -⟩ := soloEdit_spec h hy heb
  have hxx := h.start_le_stop x
  have hyy := h.start_le_stop y
  -- the nodes are apart in the text; whichever comes first, its edit stops before the other
  rcases h.separated hcx hcy hxy hyx with hlt | hlt
  · have := soloEdit_stop_le_of_clearOf h hx hea hay hlt
    refine ⟨fun hc => hc.1 (by omega), fun heq => ?_⟩
    have := congrArg Range.start heq
    omega
  · have := soloEdit_stop_le_of_clearOf h hy heb hbx hlt
    refine ⟨fun hc => hc.2 (by omega), fun heq => ?_⟩
    have := congrArg Range.start heq
    omega

omit h in
/-- A qualification writes a text and a node at most. -/
theorem changeWeight_qualifierChange (op : Operation) :
    EditSession.changeWeight (op.qualifierChange s) ≤ 3 := by
  unfold qualifierChange
  split <;> simp [EditSession.changeWeight, Template.weight, Template.weights]

omit h in
theorem qualifierChange_ne_wrapInBlock (op : Operation) (hs : List Template) :
    op.qualifierChange s ≠ .wrapInBlock hs := by
  unfold qualifierChange
  split <;> simp

/-- The nodes a qualifying operation's template writes lie below the node it changes. -/
theorem nodes_qualifierChange {op : Operation} (hq : op.IsQualifying s) {x : NodeId}
    (hx : op.changedNode? s.tree = some x) {tpl : Template}
    (htpl : op.qualifierChange s = .replace tpl) : ∀ n ∈ tpl.nodes, n ∈ s.tree.subtree x := by
  obtain ⟨x', e, hx', -, he, -⟩ := hq
  rw [hx] at hx'
  cases hx'
  intro n hn
  cases op with
  | addThisQualifier m ident q =>
    cases hx
    cases htpl
    simp only [Template.nodes, Template.nodesOf, List.nil_append, List.append_nil,
      List.mem_singleton] at hn
    exact hn ▸ h.mem_subtree_self _
  | addStaticQualifier m d isMethod =>
    cases hx
    cases htpl
    simp only [Template.nodes, Template.nodesOf, List.nil_append, List.append_nil,
      List.mem_singleton] at hn
    exact hn ▸ h.mem_subtree_self _
  | removeThisQualifier target =>
    cases target with
    | field a =>
      cases hx
      -- the template is the name of the access
      obtain ⟨nm, hnm, -⟩ := Option.map_eq_some_iff.1 he
      simp only [qualifierChange, hnm, Option.getD_some, NodeChange.replace.injEq] at htpl
      subst htpl
      simp only [Template.nodes, List.mem_singleton] at hn
      exact hn ▸ h.mem_subtree_of_mem_children (SyntaxTree.mem_children_of_child hnm)
    | method i => cases htpl
  | toStaticAccess q d acc k =>
    -- the type's name is text, with no node in it
    cases htpl
    simp [Template.nodes] at hn
  | createMember => cases he
  | changeArguments => cases he
  | changeSignature => cases he

omit h in
/-- A qualification's change, written alone, is its single edit, on any session of the unit. -/
theorem toEdit_plainEdit_qualifierChange {S : EditSession} (hS : S.tree = s.tree) {op : Operation}
    (hq : op.IsQualifying s) {x : NodeId} (hx : op.changedNode? s.tree = some x) (g : Nat) :
    some (S.toEdit (S.plainEdit x (op.qualifierChange s) g)) = op.soloEdit s := by
  obtain ⟨x', e, hx', -, he, -⟩ := hq
  rw [hx] at hx'
  cases hx'
  have hrem : S.removalRange x = s.removalRange x := by
    unfold EditSession.removalRange
    rw [hS]
  cases op with
  | addThisQualifier m ident q =>
    cases hx
    simp [EditSession.toEdit, EditSession.plainEdit, qualifierChange, soloEdit,
      Template.plainText, Template.plainTexts, hS]
  | addStaticQualifier m d isMethod =>
    cases hx
    simp [EditSession.toEdit, EditSession.plainEdit, qualifierChange, soloEdit,
      Template.plainText, Template.plainTexts, hS]
  | removeThisQualifier target =>
    cases target with
    | field a =>
      cases hx
      obtain ⟨nm, hnm, -⟩ := Option.map_eq_some_iff.1 he
      simp [EditSession.toEdit, EditSession.plainEdit, qualifierChange, soloEdit,
        Template.plainText, hnm, hS]
    | method i =>
      have hrec : s.tree.child i .expression = some x := hx
      simp [EditSession.toEdit, EditSession.plainEdit, qualifierChange, soloEdit, hrec, hrem, hS]
  | toStaticAccess q d acc k =>
    cases hx
    obtain ⟨hcall, rfl⟩ := soloEdit_toStaticAccess he
    simp [EditSession.toEdit, EditSession.plainEdit, qualifierChange, soloEdit, hcall,
      Template.plainText, hS]
  | createMember => cases he
  | changeArguments => cases he
  | changeSignature => cases he

/-- The single edits of qualifying operations are edits of the unit that fit its text and end
at or after they start. -/
theorem soloEdits_fit {ops : List Operation} (hq : ∀ op ∈ ops, op.IsQualifying s) :
    ∀ e ∈ ops.filterMap (·.soloEdit s), e.file = s.tree.file ∧ e.range.start ≤ e.range.stop ∧
      Fits s.tree.text.toList e := by
  intro e he
  obtain ⟨op, hop, hope⟩ := List.mem_filterMap.1 he
  obtain ⟨x, -, hx, -⟩ := hq op hop
  obtain ⟨hstart, hstop, hfit⟩ := soloEdit_spec h hx hope
  have := h.start_le_stop x
  exact ⟨(soloEdit_range hx hope).1, by omega, hfit⟩

/-- **The single edits of qualifications apart apply together.** They fit the text, pairwise
neither conflict nor share a range, and none ends before it starts. -/
theorem soloEdits_applicable {ops : List Operation} (hq : ∀ op ∈ ops, op.IsQualifying s)
    (hapart : ops.Pairwise (RewritesApart s)) :
    Applicable s.tree.text.toList (ops.filterMap (·.soloEdit s)) ∧
      (ops.filterMap (·.soloEdit s)).Pairwise (fun a b => a.range ≠ b.range) ∧
      ∀ e ∈ ops.filterMap (·.soloEdit s), e.range.start ≤ e.range.stop := by
  have hpw : (ops.filterMap (·.soloEdit s)).Pairwise fun a b => ¬ Conflict a b ∧ a.range ≠ b.range :=
    List.pairwise_filterMap.2 (hapart.imp_of_mem fun ha hb hab ea hea eb heb =>
      soloEdits_apart h (hq _ ha) (hq _ hb) hab hea heb)
  have hfit := soloEdits_fit h hq
  exact ⟨⟨fun e he => (hfit e he).2.2, hpw.imp (·.1)⟩, hpw.imp (·.2), fun e he => (hfit e he).2.1⟩

end Operation

/-! ### Writing changes that are apart -/

/-- Reading a list of pairs with distinct keys along a list that holds each key once gives the
pairs' entries in another order. -/
theorem List.filterMap_lookup_perm {α β γ : Type} [BEq α] [LawfulBEq α] (f : α → β → γ) :
    ∀ {z : List (α × β)} {l : List α}, l.Nodup → (z.map (·.1)).Nodup → (∀ p ∈ z, p.1 ∈ l) →
      (l.filterMap fun a => (z.lookup a).map (f a)).Perm (z.map fun p => f p.1 p.2)
  | [], l, _, _, _ => by simp
  | (k, v) :: z, l, hl, hz, hsub => by
    obtain ⟨l₁, l₂, rfl⟩ := List.append_of_mem (hsub (k, v) List.mem_cons_self)
    obtain ⟨hk, hl'⟩ := List.nodup_cons.1 (List.nodup_middle.1 hl)
    rw [List.map_cons] at hz
    obtain ⟨hkz, hz'⟩ := List.nodup_cons.1 hz
    -- away from `k` the lookup reads `z`
    have hrest : ∀ a ∈ l₁ ++ l₂, (((k, v) :: z).lookup a).map (f a) = (z.lookup a).map (f a) := by
      intro a ha
      have hak : (a == k) = false := beq_eq_false_iff_ne.2 fun hak => hk (hak ▸ ha)
      rw [List.lookup_cons, hak]
    have hsub' : ∀ p ∈ z, p.1 ∈ l₁ ++ l₂ := by
      intro p hp
      have hpk : p.1 ≠ k := fun hpk => hkz (hpk ▸ List.mem_map_of_mem (f := (·.1)) hp)
      have := hsub p (List.mem_cons_of_mem _ hp)
      simp only [List.mem_append, List.mem_cons] at this ⊢
      tauto
    have ih := List.filterMap_lookup_perm f hl' hz' hsub'
    rw [List.filterMap_append, List.filterMap_cons, List.lookup_cons_self, Option.map_some,
      List.map_cons]
    refine List.perm_middle.trans (List.Perm.cons _ ?_)
    rw [← List.filterMap_append, List.filterMap_congr hrest]
    exact ih

namespace EditSession

variable {s : EditSession}

/-- No changed node lies below another. -/
def ChangesApart (s : EditSession) : Prop :=
  ∀ x ∈ s.changedNodes, ∀ y ∈ s.changedNodes, x ∈ s.tree.subtree y → x = y

/-- A session has fuel for four steps per node at least. -/
theorem size_le_fuel (s : EditSession) : 4 * s.tree.size + 8 ≤ s.fuel := by
  dsimp only [fuel]
  refine le_trans ?_ (Nat.le_mul_of_pos_left _ (Nat.succ_pos _))
  omega

/-- With its changed nodes apart, every changed node is reached from the root. -/
theorem visible_root_of_changesApart (h : s.tree.WellFormed) (ha : s.ChangesApart) {x : NodeId}
    (hx : x ∈ s.changedNodes) (hxc : s.tree.contains x) : s.Visible SyntaxTree.root x := by
  intro a hanc _
  cases hch : s.isChanged a with
  | false => rfl
  | true =>
    -- a changed ancestor would have `x` below it
    have hxa := ha x hx a ((isChanged_iff s a).1 hch) (h.mem_subtree_of_mem_ancestors hxc hanc)
    subst hxa
    exact absurd (SyntaxTree.idx_lt_of_mem_ancestors hanc) (Nat.lt_irrefl _)

/-- **The walk over plain changes apart.** With no hoisted statement, changed nodes apart from
each other and every change plain and small, the walk from the root writes each change of a
node of the unit by its plain edit, in preorder. -/
theorem collectNode_root_of_changesApart (h : s.tree.WellFormed) (hins : s.insertsBefore = [])
    (ha : s.ChangesApart)
    (hplain : ∀ x c g, s.changeOf? x = some (c, g) → s.PlainChange c ∧ changeWeight c ≤ 3) :
    s.collectNode s.fuel SyntaxTree.root =
      .ok ((s.tree.subtree SyntaxTree.root).filterMap fun m =>
        (s.changeOf? m).map fun cg => s.plainEdit m cg.1 cg.2) := by
  let E : NodeId → PendingEdit := fun m =>
    ((s.changeOf? m).map fun cg => s.plainEdit m cg.1 cg.2).getD default
  have hE : ∀ m ∈ s.tree.subtree SyntaxTree.root, s.Visible SyntaxTree.root m → ∀ c g,
      s.changeOf? m = some (c, g) → ∀ fuel, 2 * s.tree.size + 5 ≤ fuel →
        s.renderChange fuel m c g = .ok (E m) := by
    intro m _ _ c g hm fuel hf
    obtain ⟨hp, hw⟩ := hplain m c g hm
    rw [renderChange_eq_plainEdit h hp (by omega)]
    simp [E, hm]
  have hfuel := size_le_fuel s
  rw [collectNode_eq_frontier h (2 * s.tree.size + 5) E (fun _ => default) hE
    (fun m _ _ ins hl => by simp [hins] at hl) h.root_mem (by simp [SyntaxTree.root]; omega),
    frontier, List.filterMap_eq_flatMap_toList]
  refine congrArg Except.ok (List.flatMap_congr fun m hm => ?_)
  cases hcm : s.changeOf? m with
  | none => simp [nodeEdits, hins, hcm]
  | some cg =>
    have hx : m ∈ s.changedNodes := (isChanged_iff s m).1 (by simp [isChanged, hcm])
    have hv := visible_root_of_changesApart h ha hx (h.contains_of_mem_subtree h.root_mem hm)
    simp [hv, nodeEdits, hins, hcm, E]

/-- A session on a unit begins with nothing recorded. -/
theorem start_fresh {p : Project} {file : FileId} {fmt : Format} (hs : start p file fmt = .ok s) :
    s.changes = [] ∧ s.insertsBefore = [] ∧ s.rawInserts = [] ∧ s.groups = [] ∧
      s.imports.added = [] := by
  unfold start at hs
  split at hs
  · cases hs
    exact ⟨rfl, rfl, rfl, rfl, rfl⟩
  · cases hs

theorem mem_changes_of_changeOf {x : NodeId} {c : NodeChange} {g : Nat}
    (h : s.changeOf? x = some (c, g)) : (x, c, g) ∈ s.changes := by
  obtain ⟨l₁, l₂, heq, -⟩ := List.lookup_eq_some_iff.1 h
  rw [heq]
  simp

theorem plainEdit_group (m : NodeId) (c : NodeChange) (g : Nat) : (s.plainEdit m c g).group = g := by
  cases c <;> rfl

/-- Nothing is recorded strictly below a node under a changed node, when the changed nodes are
apart and nothing is hoisted. -/
theorem quietBelow_of_changesApart (h : s.tree.WellFormed) (hins : s.insertsBefore = [])
    (ha : s.ChangesApart) {x n : NodeId} (hx : x ∈ s.changedNodes) (hn : n ∈ s.tree.subtree x) :
    s.QuietBelow n := by
  intro c hc m hm
  refine ⟨by simp [hins], ?_⟩
  cases hcm : s.changeOf? m with
  | none => rfl
  | some cg =>
    have hmx : m ∈ s.tree.subtree x :=
      h.mem_subtree_trans hn (h.mem_subtree_trans (h.mem_subtree_of_mem_children hc) hm)
    have hmc : m ∈ s.changedNodes := (isChanged_iff s m).1 (by simp [isChanged, hcm])
    obtain rfl := ha m hmc x hx hmx
    -- yet `m` lies strictly below `n`, which lies below it
    have := h.idx_le_of_mem_subtree hn
    have := (h.lt_of_mem_children hc).1
    have := h.idx_le_of_mem_subtree hm
    omega

/-- A session on a unit of the project starts on the unit's tree with nothing recorded. -/
theorem start_of_unit {p : Project} {file : FileId} {t : SyntaxTree} (ht : p.unit? file = some t)
    (fmt : Format) :
    start p file fmt =
      .ok { bindings := p.bindings, tree := t, format := fmt, imports := ImportPlan.ofTree t p.bindings } := by
  simp [start, ht]

/-! ### The session after qualifications -/

section Qualified

variable {ops : List Operation} (hch : s.changes = [])
include hch

theorem mem_changes_withQualifiers {x : NodeId} {c : NodeChange} {g : Nat} :
    (x, c, g) ∈ (s.withQualifiers ops).changes ↔
      ∃ op, (op, g) ∈ ops.zipIdx s.groups.length ∧ op.changedNode? s.tree = some x ∧
        op.qualifierChange s = c := by
  simp [withQualifiers, hch, List.mem_filterMap]

theorem changedNodes_withQualifiers :
    (s.withQualifiers ops).changedNodes = ops.filterMap (·.changedNode? s.tree) := by
  simp only [changedNodes, withQualifiers, hch, List.nil_append, List.map_filterMap, Option.map_map]
  conv_rhs => rw [← List.zipIdx_map_fst s.groups.length ops, List.filterMap_map]
  refine List.filterMap_congr fun p _ => ?_
  simp [Function.comp_def]

/-- Operations on nodes apart leave their changed nodes apart. -/
theorem changesApart_withQualifiers (hapart : ops.Pairwise (Operation.NodesApart s)) :
    (s.withQualifiers ops).ChangesApart := by
  intro x hx y hy hxy
  rw [changedNodes_withQualifiers hch, List.mem_filterMap] at hx hy
  obtain ⟨a, ha, hax⟩ := hx
  obtain ⟨b, hb, hby⟩ := hy
  by_cases hab : a = b
  · subst hab
    rw [hax] at hby
    exact Option.some.inj hby
  · -- two different operations rewrite nodes apart
    rcases SyntaxTree.pairwise_rel_or_rel hapart ha hb hab with
      ⟨x', y', hx', hy', hxy', -⟩ | ⟨y', x', hy', hx', -, hxy'⟩ <;>
    · rw [hax] at hx'
      rw [hby] at hy'
      cases hx'
      cases hy'
      exact absurd hxy hxy'

variable (h : s.tree.WellFormed) (hq : ∀ op ∈ ops, op.IsQualifying s)

section Apart

variable (hapart : ops.Pairwise (Operation.NodesApart s))
include h hq hapart

/-- After qualifications on nodes apart, every change is plain and small. -/
theorem plain_withQualifiers (hins : s.insertsBefore = []) (x : NodeId) (c : NodeChange) (g : Nat)
    (hxc : (s.withQualifiers ops).changeOf? x = some (c, g)) :
    (s.withQualifiers ops).PlainChange c ∧ changeWeight c ≤ 3 := by
  have hmem := mem_changes_of_changeOf hxc
  obtain ⟨op, hop, hx, rfl⟩ := (mem_changes_withQualifiers hch).1 hmem
  have hopm : op ∈ ops := List.fst_mem_of_mem_zipIdx hop
  have hxS : x ∈ (s.withQualifiers ops).changedNodes := List.mem_map_of_mem (f := (·.1)) hmem
  refine ⟨?_, Operation.changeWeight_qualifierChange op⟩
  cases hc : op.qualifierChange s with
  | replace tpl =>
    -- the template writes nodes below `x`, where nothing else is changed
    intro n hn
    have hnx := Operation.nodes_qualifierChange h (hq op hopm) hx hc n hn
    obtain ⟨x', -, hx', hcx, -⟩ := hq op hopm
    rw [hx] at hx'
    cases hx'
    refine ⟨h.contains_of_mem_subtree hcx hnx, ?_⟩
    exact quietBelow_of_changesApart (s := s.withQualifiers ops) h hins
      (changesApart_withQualifiers hch hapart) hxS hnx
  | remove => trivial
  | wrapInBlock hs => exact absurd hc (Operation.qualifierChange_ne_wrapInBlock op hs)

omit h hapart in
/-- The changes after qualifications, each written alone, are the operations' single edits. -/
theorem changes_map_toEdit_withQualifiers :
    (s.withQualifiers ops).changes.map (fun p =>
        (s.withQualifiers ops).toEdit ((s.withQualifiers ops).plainEdit p.1 p.2.1 p.2.2)) =
      ops.filterMap (·.soloEdit s) := by
  simp only [withQualifiers, hch, List.nil_append, List.map_filterMap]
  conv_rhs => rw [← List.zipIdx_map_fst s.groups.length ops, List.filterMap_map]
  refine List.filterMap_congr fun p hp => ?_
  obtain ⟨x, -, hx, -⟩ := hq p.1 (List.fst_mem_of_mem_zipIdx hp)
  simp only [hx, Option.map_some, Function.comp_apply]
  exact Operation.toEdit_plainEdit_qualifierChange rfl (hq p.1 (List.fst_mem_of_mem_zipIdx hp)) hx p.2

/-- **The walk after qualifications on nodes apart.** With nothing hoisted, the walk collects,
each in its operation's group, the operations' single edits, in another order. -/
theorem collectNode_withQualifiers (hins : s.insertsBefore = []) :
    ∃ pending, (s.withQualifiers ops).collectNode (s.withQualifiers ops).fuel SyntaxTree.root =
        .ok pending ∧ (∀ p ∈ pending, p.group < (s.withQualifiers ops).groupCount) ∧
      (pending.map (s.withQualifiers ops).toEdit).Perm (ops.filterMap (·.soloEdit s)) := by
  refine ⟨_, collectNode_root_of_changesApart (s := s.withQualifiers ops) h hins
    (changesApart_withQualifiers hch hapart) (plain_withQualifiers hch h hq hapart hins), ?hg, ?hperm⟩
  case hg =>
    -- each change is in the group of its operation
    intro pe hpe
    obtain ⟨m, -, hpe⟩ := List.mem_filterMap.1 hpe
    obtain ⟨⟨c, g⟩, hcg, rfl⟩ := Option.map_eq_some_iff.1 hpe
    obtain ⟨op, hop, -⟩ := (mem_changes_withQualifiers hch).1 (mem_changes_of_changeOf hcg)
    have hlt := List.snd_lt_add_of_mem_zipIdx hop
    rw [plainEdit_group]
    unfold groupCount
    split_ifs with hempty
    · simp only [withQualifiers, List.isEmpty_iff, List.append_eq_nil_iff, List.map_eq_nil_iff]
        at hempty
      rw [hempty.1, hempty.2] at hlt
      simp at hlt
    · simp only [withQualifiers, List.length_append, List.length_map]
      exact hlt
  case hperm =>
    -- the walk reads the changes along the subtree of the root, which holds each node once
    have hkeys : ((s.withQualifiers ops).changes.map (·.1)).Nodup := by
      change (s.withQualifiers ops).changedNodes.Nodup
      rw [changedNodes_withQualifiers hch]
      refine List.pairwise_filterMap.2 (hapart.imp fun ⟨x, y, hx, hy, hxy, _⟩ x' hx' y' hy' => ?_)
      rw [hx] at hx'
      rw [hy] at hy'
      cases hx'
      cases hy'
      exact fun hxy' => hxy (hxy' ▸ h.mem_subtree_self _)
    have hsub : ∀ p ∈ (s.withQualifiers ops).changes, p.1 ∈ s.tree.subtree SyntaxTree.root := by
      rintro ⟨x, c, g⟩ hp
      obtain ⟨op, hop, hx, -⟩ := (mem_changes_withQualifiers hch).1 hp
      obtain ⟨x', -, hx', hcx, -⟩ := hq op (List.fst_mem_of_mem_zipIdx hop)
      rw [hx] at hx'
      cases hx'
      exact h.mem_subtree_root hcx
    rw [← changes_map_toEdit_withQualifiers hch hq, List.map_filterMap]
    simp only [Option.map_map, Function.comp_def]
    exact List.filterMap_lookup_perm (fun m cg =>
      (s.withQualifiers ops).toEdit ((s.withQualifiers ops).plainEdit m cg.1 cg.2))
      (h.nodup_subtree _) hkeys hsub

/-- After qualifications on nodes apart, with nothing hoisted, inserted or imported, `finish`
fails when two of the operations' single edits conflict. -/
theorem finish_withQualifiers_fails (hins : s.insertsBefore = []) (hraw : s.rawInserts = [])
    (himp : s.imports.added = []) (name : String)
    (hc : ∃ a ∈ ops.filterMap (·.soloEdit s), ∃ b ∈ ops.filterMap (·.soloEdit s),
      a ≠ b ∧ Conflict a b) :
    ∃ e, (s.withQualifiers ops).finish name = .error e := by
  obtain ⟨pending, hp, hg, hperm⟩ := collectNode_withQualifiers hch h hq hapart hins
  obtain ⟨flat, hflat, hfin⟩ := finish_edits_perm (s.withQualifiers ops) name hraw himp hp hg
  have hfs := hflat.trans hperm
  have hfit := Operation.soloEdits_fit h hq
  -- the conflicting pair is among the edits `finish` normalises
  obtain ⟨a, ha, b, hb, hne, hab⟩ := hc
  obtain ⟨err, herr⟩ := (normalize_fails_iff fun e he => (hfit e (hfs.mem_iff.1 he)).2.1).2
    ⟨a, hfs.mem_iff.2 ha, b, hfs.mem_iff.2 hb, (hfit a ha).1.trans (hfit b hb).1.symm, hne, hab⟩
  rw [herr] at hfin
  cases hf : (s.withQualifiers ops).finish name with
  | error e => exact ⟨e, rfl⟩
  | ok c =>
    rw [hf] at hfin
    cases hfin

end Apart

include h hq in
/-- **Finishing qualifications apart.** After qualifications apart, on a session with nothing
hoisted, inserted or imported, `finish` succeeds with the operations' single edits, and the
change writes all of them. -/
theorem finish_withQualifiers (hapart : ops.Pairwise (Operation.RewritesApart s))
    (hins : s.insertsBefore = []) (hraw : s.rawInserts = []) (himp : s.imports.added = [])
    (name : String) :
    ∃ c, (s.withQualifiers ops).finish name = .ok c ∧
      c.edits.Perm (ops.filterMap (·.soloEdit s)) ∧
      c.apply s.tree.text = .ok (applyBackToFront s.tree.text (ops.filterMap (·.soloEdit s))) := by
  obtain ⟨pending, hp, hg, hperm⟩ :=
    collectNode_withQualifiers hch h hq (hapart.imp Operation.RewritesApart.nodesApart) hins
  obtain ⟨happ, hd, hr⟩ := Operation.soloEdits_applicable h hq hapart
  exact finish_eq_ok_of_perm (s.withQualifiers ops) name hraw himp hp hg hperm happ hd hr

end Qualified

end EditSession

/-! ### Fixes made of qualifications apart -/

/-- A fix made of qualifying operations on nodes apart is written as the session after them. -/
theorem Fix.change_eq_finish_withQualifiers {p : Project} {file : FileId} {fmt : Format}
    {s : EditSession} (hs : EditSession.start p file fmt = .ok s) (hwf : s.tree.WellFormed)
    {ops : List Operation} (hq : ∀ op ∈ ops, op.IsQualifying s)
    (hapart : ops.Pairwise (Operation.NodesApart s)) (name : String) :
    (Fix.mk name file ops).change p fmt = (s.withQualifiers ops).finish name := by
  obtain ⟨hch, -⟩ := EditSession.start_fresh hs
  have hrun := Operation.foldlM_apply_of_isQualifying ops hwf hq
    (hapart.imp (·.changedNode_ne hwf)) (fun _ _ _ _ => by simp [EditSession.changedNodes, hch])
  simp only [Fix.change, hs, hrun, bind, Except.bind]

/-- **Qualifications apart are written independently.** On a well-formed unit, a fix made of
operations that each rewrite one node by themselves, that plan no import, and whose rewritten
nodes are apart, is written as the union of its operations' single edits: in whatever order
the operations come, `change` succeeds with exactly those edits, and the text it makes is the
text with every single edit made. -/
theorem change_of_rewrites_apart {p : Project} {file : FileId} {fmt : Format} {s : EditSession}
    (hs : EditSession.start p file fmt = .ok s) (hwf : s.tree.WellFormed)
    {ops ops' : List Operation} (hq : ∀ op ∈ ops, op.IsQualifying s)
    (hapart : ops.Pairwise (Operation.RewritesApart s)) (hperm : ops'.Perm ops) (name : String) :
    ∃ c, (Fix.mk name file ops').change p fmt = .ok c ∧
      c.edits.Perm (ops.filterMap (·.soloEdit s)) ∧
      c.apply s.tree.text = .ok (applyBackToFront s.tree.text (ops.filterMap (·.soloEdit s))) := by
  obtain ⟨hch, hins, hraw, -, himp⟩ := EditSession.start_fresh hs
  have hq' : ∀ op ∈ ops', op.IsQualifying s := fun op h => hq op (hperm.mem_iff.1 h)
  have hapart' : ops'.Pairwise (Operation.RewritesApart s) :=
    hperm.symm.pairwise hapart Operation.RewritesApart.symm
  obtain ⟨c, hfin, hedits, happly⟩ :=
    EditSession.finish_withQualifiers hch hwf hq' hapart' hins hraw himp name
  have hsol := hperm.filterMap (·.soloEdit s)
  obtain ⟨happ, hd, hr⟩ := Operation.soloEdits_applicable hwf hq' hapart'
  refine ⟨c, ?_, hedits.trans hsol, ?_⟩
  · rw [Fix.change_eq_finish_withQualifiers hs hwf hq' (hapart'.imp (·.nodesApart))]
    exact hfin
  · rw [happly, applyBackToFront_perm_of_distinct hsol hd hr _ happ]

/-- The unit
```
package p;

public class E {
    int count;
    void foo(int x) {
    }
    void run() {
        this.foo(count);
    }
}
```
-/
@[irreducible] def thisCallWithField : Project :=
  let setup : Except String Setup := do
    let s ← [.type .classType "E" "p" none none "E",
        .field "count" "E" "int" {} none "count",
        .method "foo" "E" [("int", "x")] none {} false none "foo",
        .method "run" "E" [] none {} false none "run"].foldlM Setup.declare {}
    let unit : Outline.SourceUnit :=
      { file := "A.java", package := some "p",
        types := [.mk ⟨12⟩ [.field ⟨0⟩ none, .method ⟨0⟩ (some []), .method ⟨1⟩ (some
          [.expr (.call (some (.thisRef none)) { binding := some (.method ⟨0⟩) }
            [.name { binding := some (.var ⟨0⟩) }])])]] }
    match s.writeUnit unit with
    | .ok s => pure s
    | .error _ => throw "render"
  match setup with
  | .ok s => s.project
  | .error _ => default

/-- In `thisCallWithField`, removing the receiver of `this.foo(count)` and qualifying `count`
with `this`, in either order, are the two single edits: `this.` goes, and `count` becomes
`this.count`. -/
theorem change_of_rewrites_apart_on_this_call :
    ∃ s, EditSession.start thisCallWithField ⟨"A.java"⟩ default = .ok s ∧
      ∃ c, (Fix.mk "Change code style" ⟨"A.java"⟩
          [.removeThisQualifier (.method ⟨21⟩), .addThisQualifier ⟨24⟩ "count" none]).change
          thisCallWithField default = .ok c ∧
        c.edits.Perm [⟨⟨"A.java"⟩, ⟨106, 111⟩, "this.count"⟩, ⟨⟨"A.java"⟩, ⟨97, 102⟩, ""⟩] ∧
        c.apply s.tree.text = .ok (applyBackToFront s.tree.text
          [⟨⟨"A.java"⟩, ⟨106, 111⟩, "this.count"⟩, ⟨⟨"A.java"⟩, ⟨97, 102⟩, ""⟩]) := by
  have hunit : (thisCallWithField.unit? ⟨"A.java"⟩).isSome = true := by decide +kernel
  have hs := EditSession.start_of_unit ((Option.eq_some_of_isSome hunit).trans
    (congrArg some (@Option.get_eq_getD _ default _ hunit))) default
  have hrecv : ((thisCallWithField.unit? ⟨"A.java"⟩).getD default).child ⟨21⟩ .expression =
      some ⟨22⟩ := by decide +kernel
  obtain ⟨c, hc, hedits, happly⟩ := @change_of_rewrites_apart _ _ _ _ hs
    (SyntaxTree.wellFormed_of_checkShape (by decide +kernel))
    [.addThisQualifier ⟨24⟩ "count" none, .removeThisQualifier (.method ⟨21⟩)]
    [.removeThisQualifier (.method ⟨21⟩), .addThisQualifier ⟨24⟩ "count" none]
    (by
      simp only [List.mem_cons, List.not_mem_nil, or_false, forall_eq_or_imp, forall_eq]
      refine ⟨⟨⟨24⟩, _, rfl, by decide +kernel, rfl, trivial⟩,
        ⟨⟨22⟩, ?e, hrecv, by decide +kernel, ?_, trivial⟩⟩
      show Option.map _ _ = _
      rw [hrecv]
      rfl)
    (by
      -- the receiver's removal stops where the name `foo` starts, well before `count`
      refine List.pairwise_pair.2 ⟨⟨24⟩, ⟨22⟩, rfl, hrecv, ?_, ?_, ?_, ?_⟩
      · decide +kernel
      · decide +kernel
      · intro i r h
        cases h
      · intro i r h hr
        cases h
        rw [hrecv] at hr
        cases hr
        decide +kernel)
    (List.Perm.swap _ _ _) "Change code style"
  -- the single edits, computed
  refine ⟨_, hs, c, hc, hedits.trans (List.Perm.of_eq (by decide +kernel)), happly.trans ?_⟩
  congr 2
  decide +kernel

/-- **Qualifications whose single edits conflict cannot be written.** On a well-formed unit, a
fix made of qualifying operations on nodes apart in the tree fails when two of their single
edits conflict. -/
theorem change_fails_of_conflict {p : Project} {file : FileId} {fmt : Format} {s : EditSession}
    (hs : EditSession.start p file fmt = .ok s) (hwf : s.tree.WellFormed)
    {ops : List Operation} (hq : ∀ op ∈ ops, op.IsQualifying s)
    (hapart : ops.Pairwise (Operation.NodesApart s))
    (hc : ∃ a ∈ ops.filterMap (·.soloEdit s), ∃ b ∈ ops.filterMap (·.soloEdit s),
      a ≠ b ∧ Conflict a b) (name : String) :
    ∃ e, (Fix.mk name file ops).change p fmt = .error e := by
  obtain ⟨hch, hins, hraw, -, himp⟩ := EditSession.start_fresh hs
  rw [Fix.change_eq_finish_withQualifiers hs hwf hq hapart]
  exact EditSession.finish_withQualifiers_fails hch hwf hq hapart hins hraw himp name hc

/-- The unit
```
package p;

public class F {
    int count2;
    void foo(int x) {
    }
    void run() {
        F.this. foo(count2);
    }
}
```
whose call names its method with a blank before it. -/
@[irreducible] def blankBeforeName : Project :=
  let setup : Except String Setup := do
    let s ← [.type .classType "F" "p" none none "F",
        .field "count2" "F" "int" {} none "count2",
        .method "foo" "F" [("int", "x")] none {} false none "foo",
        .method "run" "F" [] none {} false none "run"].foldlM Setup.declare {}
    let unit : Outline.SourceUnit :=
      { file := "B.java", package := some "p",
        types := [.mk ⟨12⟩ [.field ⟨0⟩ none, .method ⟨0⟩ (some []), .method ⟨1⟩ (some
          [.expr (.call (some (.thisRef (some ⟨12⟩))) { text := " foo", binding := some (.method ⟨0⟩) }
            [.name { binding := some (.var ⟨0⟩) }])])]] }
    match s.writeUnit unit with
    | .ok s => pure s
    | .error _ => throw "render"
  match setup with
  | .ok s => s.project
  | .error _ => default

/-- Nodes apart in the tree are not enough. In `blankBeforeName`, qualifying the method's name
` foo` with `this` and removing the receiver `F.this` of its call plan no import and change
nodes apart in the tree, yet the fix cannot be written: the receiver goes with the dot and the
blank after it, which is the first character of the name. -/
theorem change_fails_of_name_after_removed_receiver :
    ∃ s, EditSession.start blankBeforeName ⟨"B.java"⟩ default = .ok s ∧ s.tree.WellFormed ∧
      (∀ op ∈ [Operation.addThisQualifier ⟨24⟩ "count" none,
        .removeThisQualifier (.method ⟨21⟩)], op.IsQualifying s) ∧
      [Operation.addThisQualifier ⟨24⟩ "count" none,
        .removeThisQualifier (.method ⟨21⟩)].Pairwise (Operation.NodesApart s) ∧
      ∃ e, (Fix.mk "Change code style" ⟨"B.java"⟩ [.addThisQualifier ⟨24⟩ "count" none,
        .removeThisQualifier (.method ⟨21⟩)]).change blankBeforeName default = .error e := by
  have hunit : (blankBeforeName.unit? ⟨"B.java"⟩).isSome = true := by decide +kernel
  have hs := EditSession.start_of_unit ((Option.eq_some_of_isSome hunit).trans
    (congrArg some (@Option.get_eq_getD _ default _ hunit))) default
  have hwf : ((blankBeforeName.unit? ⟨"B.java"⟩).getD default).WellFormed :=
    SyntaxTree.wellFormed_of_checkShape (by decide +kernel)
  have hrecv : ((blankBeforeName.unit? ⟨"B.java"⟩).getD default).child ⟨21⟩ .expression =
      some ⟨22⟩ := by decide +kernel
  refine ⟨_, hs, hwf, ?hq, ?hapart, change_fails_of_conflict hs hwf ?hq ?hapart ?hc _⟩
  case hq =>
    simp only [List.mem_cons, List.not_mem_nil, or_false, forall_eq_or_imp, forall_eq]
    refine ⟨⟨⟨24⟩, _, rfl, by decide +kernel, rfl, trivial⟩,
      ⟨⟨22⟩, ?e, hrecv, by decide +kernel, ?_, trivial⟩⟩
    show Option.map _ _ = _
    rw [hrecv]
    rfl
  case hapart =>
    exact List.pairwise_pair.2 ⟨⟨24⟩, ⟨22⟩, rfl, hrecv, by decide +kernel, by decide +kernel⟩
  case hc =>
    -- the name starts on the blank that the receiver's removal takes
    refine ⟨⟨⟨"B.java"⟩, ⟨105, 109⟩, "this. foo"⟩, by decide +kernel,
      ⟨⟨"B.java"⟩, ⟨98, 106⟩, ""⟩, by decide +kernel, by decide, ?_⟩
    unfold Conflict
    decide

end QuickFix
