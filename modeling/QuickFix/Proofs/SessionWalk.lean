import QuickFix.Proofs.TreeShape
import QuickFix.Proofs.ConflictingChanges

/-!
# Walking an edit session

`EditSession.collectNode` walks the unit's tree down from a node: a node with statements hoisted
before it gives one insertion at its start, a node with a change gives the edit that writes the
change and hides everything below it, and any other node hands the walk on to its children.

On a well-formed tree the walk needs fuel only for the height of the tree, and what it collects
is a function of the nodes alone: the hoisted insertions and the changes of the **visible**
nodes of the subtree, those with no changed node above them, in preorder
(`collectNode_eq_frontier`). A subtree with nothing recorded in it is written as it stands
(`renderNode_eq_source`).
-/

namespace QuickFix

/-- A `mapM` in `Except` whose every step succeeds gives the mapped list. -/
theorem List.mapM_eq_ok_of_forall {ε α β : Type} {f : α → Except ε β} {g : α → β} :
    ∀ {l : List α}, (∀ a ∈ l, f a = .ok (g a)) → l.mapM f = .ok (l.map g)
  | [], _ => rfl
  | a :: l, h => by
    rw [List.mapM_cons, h a List.mem_cons_self,
      List.mapM_eq_ok_of_forall fun b hb => h b (List.mem_cons_of_mem a hb)]
    rfl

/-! ### Skipping blanks from a character boundary -/

section Blanks

open Text

theorem le_byteSize_of_isCharBoundary {cs : List Char} {n : Nat} (h : IsCharBoundary cs n) :
    n ≤ byteSize cs := by
  obtain ⟨pre, suf, rfl, rfl⟩ := h
  simp

/-- From a character boundary, skipping blanks moves forward to another boundary. -/
theorem skipBlankForward_of_isCharBoundary {cs : List Char} {o : Nat} (h : IsCharBoundary cs o) :
    o ≤ skipBlankForward cs o ∧ IsCharBoundary cs (skipBlankForward cs o) := by
  obtain ⟨pre, suf, rfl, rfl⟩ := h
  have hclamp : clampOffset (pre ++ suf) (byteSize pre) = byteSize pre := by
    simp [clampOffset]
  simp only [skipBlankForward, hclamp, dropBytes_append_byteSize]
  refine ⟨Nat.le_add_right _ _, pre ++ suf.takeWhile isBlank, suf.dropWhile isBlank, ?_, by simp⟩
  rw [List.append_assoc, List.takeWhile_append_dropWhile]

/-- A dot at a character boundary is one byte long, so the offset after it is a boundary too. -/
theorem isCharBoundary_succ_of_dot {cs : List Char} {a : Nat} (h : IsCharBoundary cs a)
    (hdot : sliceBytes cs a (a + 1) = ['.']) : IsCharBoundary cs (a + 1) := by
  obtain ⟨pre, suf, rfl, rfl⟩ := h
  simp only [sliceBytes, dropBytes_append_byteSize, Nat.add_sub_cancel_left] at hdot
  cases suf with
  | nil => simp [takeBytes, splitBytes] at hdot
  | cons c rest =>
    have hc : c = '.' := by
      unfold takeBytes splitBytes at hdot
      split at hdot <;> simp_all
    subst hc
    exact ⟨pre ++ ['.'], rest, by simp, by simp; rfl⟩

end Blanks

namespace EditSession

variable (s : EditSession)

/-! ### One step of each function of the walk -/

/-- The insertion that writes the statements hoisted before a node: each template rendered and
followed by the separator and the indentation of the node's line. -/
def hoistEdit (fuel : Nat) (n : NodeId) (ins : List (Template × Nat)) :
    Except FixError PendingEdit := do
  let indent := String.ofList (Text.lineIndent s.tree.text.toList (s.tree.range n).start)
  let texts ← ins.mapM fun (t, _) => do return (← s.render fuel t) ++ s.separator ++ indent
  return { range := Range.point (s.tree.range n).start, text := String.join texts,
           group := (ins.head?.map (·.2)).getD 0 }

/-- The insertion before a node, if statements are hoisted before it. -/
def hoisted (fuel : Nat) (n : NodeId) : Except FixError (List PendingEdit) :=
  match s.insertsBefore.lookup n with
  | some ins => (fun e => [e]) <$> s.hoistEdit fuel n ins
  | none => .ok []

/-- The edit of a node's change, or the edits of its children if it has none. -/
def own (fuel : Nat) (n : NodeId) : Except FixError (List PendingEdit) :=
  match s.changeOf? n with
  | some (c, g) => (fun e => [e]) <$> s.renderChange fuel n c g
  | none => s.collectChildren fuel n

/-- The edits of a node: its hoisted statements, then its change or the edits of its
children. -/
theorem collectNode_succ (fuel : Nat) (n : NodeId) :
    s.collectNode (fuel + 1) n =
      s.hoisted fuel n >>= fun before => s.own fuel n >>= fun rest => pure (before ++ rest) := by
  rw [collectNode.eq_2, hoisted, own]
  cases s.insertsBefore.lookup n with
  | none =>
    cases s.changeOf? n with
    | none => dsimp only; cases s.collectChildren fuel n <;> rfl
    | some cg =>
      obtain ⟨c, g⟩ := cg
      dsimp only
      cases s.renderChange fuel n c g <;> rfl
  | some ins =>
    dsimp only [hoistEdit]
    cases (ins.mapM fun (t, _) => do
        return (← s.render fuel t) ++ s.separator ++
          String.ofList (Text.lineIndent s.tree.text.toList (s.tree.range n).start)) with
    | error e => rfl
    | ok texts =>
      cases s.changeOf? n with
      | none => dsimp only; cases s.collectChildren fuel n <;> rfl
      | some cg =>
        obtain ⟨c, g⟩ := cg
        dsimp only
        cases s.renderChange fuel n c g <;> rfl

theorem collectChildren_succ (fuel : Nat) (n : NodeId) :
    s.collectChildren (fuel + 1) n =
      (s.tree.children n).mapM (s.collectNode fuel) >>= fun parts => pure parts.flatten := by
  rw [collectChildren.eq_2]

theorem render_succ_text (fuel : Nat) (x : String) : s.render (fuel + 1) (.text x) = .ok x := rfl

theorem render_succ_node (fuel : Nat) (n : NodeId) :
    s.render (fuel + 1) (.node n) = s.renderNode fuel n := rfl

theorem render_succ_concat (fuel : Nat) (ps : List Template) :
    s.render (fuel + 1) (.concat ps) =
      ps.mapM (s.render fuel) >>= fun xs => pure (String.join xs) := by
  rw [render.eq_4]

theorem renderChange_succ_replace (fuel : Nat) (n : NodeId) (t : Template) (g : Nat) :
    s.renderChange (fuel + 1) n (.replace t) g =
      s.render fuel t >>= fun x => pure { range := s.tree.range n, text := x, group := g } := by
  rw [renderChange.eq_2]

theorem renderChange_succ_remove (fuel : Nat) (n : NodeId) (g : Nat) :
    s.renderChange (fuel + 1) n .remove g = .ok { range := s.removalRange n, text := "", group := g } :=
  rfl

/-- An edit found below a node, moved to offsets from its start; an abort where its start would
wrap past its stop. -/
def rebase (n : NodeId) (p : PendingEdit) : Except FixError TextEdit :=
  match rebaseRange (s.tree.range n).start p.range with
  | some r => .ok { file := s.tree.file, range := r, text := p.text }
  | none => .error .abort

/-- A node of the unit is written as its text with the edits below it applied. -/
theorem renderNode_succ (fuel : Nat) {n : NodeId} (hn : s.tree.contains n) :
    s.renderNode (fuel + 1) n = s.collectChildren fuel n >>= fun pending =>
      pending.mapM (s.rebase n) >>= fun edits =>
        (applyEdits (s.tree.source n) edits).mapError .edit := by
  rw [renderNode.eq_2]
  simp only [check, hn, if_true]
  rfl

/-- An edit that starts at or after the node's start keeps its length, moved by the start. -/
theorem rebase_of_le {n : NodeId} {p : PendingEdit} (hs : (s.tree.range n).start ≤ p.range.start)
    (hp : p.range.start ≤ p.range.stop) :
    s.rebase n p = .ok ⟨s.tree.file,
      ⟨p.range.start - (s.tree.range n).start, p.range.stop - (s.tree.range n).start⟩, p.text⟩ := by
  have hstop : (s.tree.range n).start ≤ p.range.stop := hs.trans hp
  simp only [rebase, rebaseRange, wrappingSub, if_pos hs, if_pos hstop,
    if_pos (Nat.sub_le_sub_right hp _)]

/-- An edit that starts before the node's start and stops at or after it aborts. -/
theorem rebase_of_lt {n : NodeId} {p : PendingEdit} (hs : p.range.start < (s.tree.range n).start)
    (hp : (s.tree.range n).start ≤ p.range.stop) (hw : p.range.stop < wordSize) :
    s.rebase n p = .error .abort := by
  have hwrap : ¬wordSize + p.range.start - (s.tree.range n).start ≤ p.range.stop -
      (s.tree.range n).start := by omega
  simp only [rebase, rebaseRange, wrappingSub, if_neg (Nat.not_le.2 hs), if_pos hp, if_neg hwrap]

/-! ### Where a removal reaches -/

/-- Removing an expression child (a receiver) starts where the child starts and stops at a
character boundary at or after its end: past the dot after a receiver of a call and the blanks
that follow it. -/
theorem removalRange_of_role_expression {s : EditSession} (h : s.tree.WellFormed) {r : NodeId}
    (hrole : s.tree.role r = .expression) :
    (s.removalRange r).start = (s.tree.range r).start ∧
      (s.tree.range r).stop ≤ (s.removalRange r).stop ∧
      IsCharBoundary s.tree.text.toList (s.removalRange r).stop := by
  have hb := (h.boundary r).2
  unfold removalRange
  dsimp only
  cases s.tree.parent r with
  | none => exact ⟨rfl, Nat.le_refl _, hb⟩
  | some p =>
    have hlist : (Role.expression == Role.argument || Role.expression == Role.parameter) = false := by
      decide
    simp only [hrole, hlist, Bool.false_eq_true, ↓reduceIte]
    split_ifs with hmi hdot
    · -- the dot after a call's receiver, and the blanks around it, go too
      obtain ⟨hle₁, hb₁⟩ := skipBlankForward_of_isCharBoundary hb
      have hb₂ := isCharBoundary_succ_of_dot hb₁ (by simpa using hdot)
      obtain ⟨hle₂, hb₃⟩ := skipBlankForward_of_isCharBoundary hb₂
      exact ⟨rfl, by dsimp only; omega, hb₃⟩
    · exact ⟨rfl, Nat.le_refl _, hb⟩
    · exact ⟨rfl, Nat.le_refl _, hb⟩

/-! ### What the walk collects -/

/-- A node `m` below `n` is **visible** from `n` when no node between them, `n` included, has a
change: the walk from `n` reaches it. -/
def Visible (n m : NodeId) : Prop :=
  ∀ a ∈ s.tree.ancestors m, a ∈ s.tree.subtree n → s.isChanged a = false

instance (n m : NodeId) : Decidable (s.Visible n m) :=
  inferInstanceAs
    (Decidable (∀ a ∈ s.tree.ancestors m, a ∈ s.tree.subtree n → s.isChanged a = false))

/-- What the walk takes from a node it reaches: the insertion `I m` of the statements hoisted
before it, then the edit `E m` of its change. -/
def nodeEdits (E I : NodeId → PendingEdit) (m : NodeId) : List PendingEdit :=
  ((s.insertsBefore.lookup m).map fun _ => I m).toList ++ ((s.changeOf? m).map fun _ => E m).toList

/-- The edits of the nodes visible from `n`, in preorder. -/
def frontier (E I : NodeId → PendingEdit) (n : NodeId) : List PendingEdit :=
  (s.tree.subtree n).flatMap fun m => if s.Visible n m then s.nodeEdits E I m else []

/-- Nothing is recorded at a node: no change and no hoisted statement. -/
def Untouched (m : NodeId) : Prop := s.insertsBefore.lookup m = none ∧ s.changeOf? m = none

/-- Nothing is recorded strictly below a node. -/
def QuietBelow (n : NodeId) : Prop := ∀ c ∈ s.tree.children n, ∀ m ∈ s.tree.subtree c, s.Untouched m

variable {s} (h : s.tree.WellFormed)
include h

theorem visible_self (n : NodeId) : s.Visible n n := fun _ ha han =>
  absurd (h.idx_le_of_mem_subtree han) (Nat.not_le.2 (SyntaxTree.idx_lt_of_mem_ancestors ha))

/-- Nothing strictly below a changed node is visible from it. -/
theorem not_visible_of_isChanged {n m : NodeId} (hn : s.tree.contains n) (hch : s.isChanged n = true)
    (hm : m ∈ s.tree.subtree n) (hne : m ≠ n) : ¬ s.Visible n m := fun hv => by
  have hmc := h.contains_of_mem_subtree hn hm
  have := hv n (h.mem_ancestors_of_mem_subtree hmc hm hne) (h.mem_subtree_self n)
  rw [hch] at this
  cases this

/-- Below an unchanged node, what is visible from it is what is visible from its children. -/
theorem visible_iff_of_mem_children {n c m : NodeId} (hch : s.isChanged n = false)
    (hc : c ∈ s.tree.children n) (hmc : m ∈ s.tree.subtree c) (hm : s.tree.contains m) :
    s.Visible n m ↔ s.Visible c m := by
  constructor
  · intro hv a ha hac
    exact hv a ha (h.mem_subtree_trans (h.mem_subtree_of_mem_children hc) hac)
  · intro hv a ha han
    rcases h.mem_subtree_of_mem_ancestors_of_mem_children hm hc hmc ha han with rfl | hac
    · exact hch
    · exact hv a ha hac

theorem frontier_of_changed {n : NodeId} (hn : s.tree.contains n) (E I : NodeId → PendingEdit)
    (hch : s.isChanged n = true) : s.frontier E I n = s.nodeEdits E I n := by
  rw [frontier, h.subtree_eq, List.flatMap_cons, if_pos (visible_self h n)]
  -- the nodes below the children are hidden by the change of `n`
  have hrest : ((s.tree.children n).flatMap s.tree.subtree).flatMap
      (fun m => if s.Visible n m then s.nodeEdits E I m else []) = [] := by
    refine List.flatMap_eq_nil_iff.2 fun m hm => if_neg ?_
    obtain ⟨c, hc, hmc⟩ := List.mem_flatMap.1 hm
    have hmn := h.mem_subtree_trans (h.mem_subtree_of_mem_children hc) hmc
    have hne : m ≠ n := fun hmn' => by
      have := h.idx_le_of_mem_subtree hmc
      have := (h.lt_of_mem_children hc).1
      rw [hmn'] at *
      omega
    exact not_visible_of_isChanged h hn hch hmn hne
  rw [hrest, List.append_nil]

theorem frontier_of_unchanged {n : NodeId} (E I : NodeId → PendingEdit)
    (hch : s.isChanged n = false) :
    s.frontier E I n = s.nodeEdits E I n ++ (s.tree.children n).flatMap (s.frontier E I) := by
  rw [frontier, h.subtree_eq, List.flatMap_cons, if_pos (visible_self h n), List.flatMap_assoc]
  congr 1
  refine List.flatMap_congr fun c hc => List.flatMap_congr fun m hmc => ?_
  have hm := h.contains_of_mem_subtree (h.lt_of_mem_children hc).2 hmc
  exact if_congr (visible_iff_of_mem_children h hch hc hmc hm) rfl rfl

/-- **The walk collects the edits of the visible nodes.** When every change of a node visible
from `n` is written as `E m` and every hoist as `I m` with `K` units of fuel, then given twice
the height below `n` and `K` more, the walk from `n` collects the edits of the nodes visible
from it, in preorder. Each step down takes two units of fuel, one for the node and one for its
children. -/
theorem collectNode_eq_frontier (K : Nat) (E I : NodeId → PendingEdit) {n : NodeId}
    (hE : ∀ m ∈ s.tree.subtree n, s.Visible n m → ∀ c g, s.changeOf? m = some (c, g) →
      ∀ fuel, K ≤ fuel → s.renderChange fuel m c g = .ok (E m))
    (hI : ∀ m ∈ s.tree.subtree n, s.Visible n m → ∀ ins, s.insertsBefore.lookup m = some ins →
      ∀ fuel, K ≤ fuel → s.hoistEdit fuel m ins = .ok (I m))
    (hn : s.tree.contains n) {fuel : Nat} (hf : 2 * (s.tree.size - n.idx) + K + 1 ≤ fuel) :
    s.collectNode fuel n = .ok (s.frontier E I n) := by
  induction n using h.induction generalizing fuel with
  | step n ih =>
  obtain ⟨f, rfl⟩ : ∃ f, fuel = f + 1 := ⟨fuel - 1, by omega⟩
  have hsize : n.idx < s.tree.size := by simpa [SyntaxTree.contains, SyntaxTree.size] using hn
  have hhoist : s.hoisted f n = .ok ((s.insertsBefore.lookup n).map fun _ => I n).toList := by
    unfold hoisted
    cases hl : s.insertsBefore.lookup n with
    | none => rfl
    | some ins =>
      dsimp only
      rw [hI n (h.mem_subtree_self n) (visible_self h n) ins hl f (by omega)]
      rfl
  rw [collectNode_succ, hhoist]
  cases hc : s.changeOf? n with
  | some cg =>
    -- a changed node is written by its change, which hides what is below it
    obtain ⟨c, g⟩ := cg
    have hch : s.isChanged n = true := by simp [isChanged, hc]
    rw [frontier_of_changed h hn E I hch, nodeEdits, hc]
    simp only [own, hc, hE n (h.mem_subtree_self n) (visible_self h n) c g hc f (by omega)]
    rfl
  | none =>
    -- an unchanged node hands the walk on to its children, each with two units less
    have hch : s.isChanged n = false := by simp [isChanged, hc]
    rw [frontier_of_unchanged h E I hch, nodeEdits, hc]
    obtain ⟨f', rfl⟩ : ∃ f', f = f' + 1 := ⟨f - 1, by omega⟩
    have hkids : (s.tree.children n).mapM (s.collectNode f') =
        .ok ((s.tree.children n).map (s.frontier E I)) := by
      refine List.mapM_eq_ok_of_forall fun c hc' => ?_
      obtain ⟨hlt, hcc⟩ := h.lt_of_mem_children hc'
      have hcs : c.idx < s.tree.size := by simpa [SyntaxTree.contains, SyntaxTree.size] using hcc
      have hsub : ∀ m ∈ s.tree.subtree c, m ∈ s.tree.subtree n := fun m hm =>
        h.mem_subtree_trans (h.mem_subtree_of_mem_children hc') hm
      have hvis : ∀ m ∈ s.tree.subtree c, s.Visible c m → s.Visible n m := fun m hm hv =>
        (visible_iff_of_mem_children h hch hc' hm (h.contains_of_mem_subtree hcc hm)).2 hv
      exact ih c hc' (fun m hm hv => hE m (hsub m hm) (hvis m hm hv))
        (fun m hm hv => hI m (hsub m hm) (hvis m hm hv)) hcc (by omega)
    simp only [own, hc, collectChildren_succ, hkids, List.flatMap_def, Option.map_none,
      Option.toList_none, List.append_nil]
    rfl

/-- The walk below a node collects the edits of the nodes visible from its children, given fuel
for twice the height below it and `K` more. -/
theorem collectChildren_eq_frontier (K : Nat) (E I : NodeId → PendingEdit) {n : NodeId}
    (hE : ∀ c ∈ s.tree.children n, ∀ m ∈ s.tree.subtree c, s.Visible c m → ∀ ch g,
      s.changeOf? m = some (ch, g) →
      ∀ fuel, K ≤ fuel → s.renderChange fuel m ch g = .ok (E m))
    (hI : ∀ c ∈ s.tree.children n, ∀ m ∈ s.tree.subtree c, s.Visible c m → ∀ ins,
      s.insertsBefore.lookup m = some ins →
      ∀ fuel, K ≤ fuel → s.hoistEdit fuel m ins = .ok (I m))
    (hn : s.tree.contains n) {fuel : Nat} (hf : 2 * (s.tree.size - n.idx) + K ≤ fuel) :
    s.collectChildren fuel n = .ok ((s.tree.children n).flatMap (s.frontier E I)) := by
  have hsize : n.idx < s.tree.size := by simpa [SyntaxTree.contains, SyntaxTree.size] using hn
  obtain ⟨f, rfl⟩ : ∃ f, fuel = f + 1 := ⟨fuel - 1, by omega⟩
  have hkids : (s.tree.children n).mapM (s.collectNode f) =
      .ok ((s.tree.children n).map (s.frontier E I)) := by
    refine List.mapM_eq_ok_of_forall fun c hc => ?_
    obtain ⟨hlt, hcc⟩ := h.lt_of_mem_children hc
    have hcs : c.idx < s.tree.size := by simpa [SyntaxTree.contains, SyntaxTree.size] using hcc
    exact collectNode_eq_frontier h K E I (hE c hc) (hI c hc) hcc (by omega)
  rw [collectChildren_succ, hkids, List.flatMap_def]
  rfl

omit h in
theorem frontier_eq_nil {n : NodeId} (E I : NodeId → PendingEdit)
    (hq : ∀ m ∈ s.tree.subtree n, s.Untouched m) : s.frontier E I n = [] := by
  refine List.flatMap_eq_nil_iff.2 fun m hm => ?_
  obtain ⟨hl, hc⟩ := hq m hm
  split <;> simp [nodeEdits, hl, hc]

/-- A node with nothing recorded below it is written as its own text. -/
theorem renderNode_eq_source {n : NodeId} (hn : s.tree.contains n) (hq : s.QuietBelow n)
    {fuel : Nat} (hf : 2 * (s.tree.size - n.idx) + 1 ≤ fuel) :
    s.renderNode fuel n = .ok (s.tree.source n) := by
  obtain ⟨f, rfl⟩ : ∃ f, fuel = f + 1 := ⟨fuel - 1, by omega⟩
  have hkids : s.collectChildren f n = .ok ((s.tree.children n).flatMap
      (s.frontier (fun _ => default) (fun _ => default))) :=
    collectChildren_eq_frontier h 0 (fun _ => default) (fun _ => default)
      (fun c hc m hm _ _ _ hch => by rw [(hq c hc m hm).2] at hch; cases hch)
      (fun c hc m hm _ _ hl => by rw [(hq c hc m hm).1] at hl; cases hl) hn (by omega)
  have hnil : (s.tree.children n).flatMap (s.frontier (fun _ => default) (fun _ => default)) = [] :=
    List.flatMap_eq_nil_iff.2 fun c hc => frontier_eq_nil _ _ (hq c hc)
  rw [renderNode_succ s f hn, hkids, hnil]
  rfl

/-! ### Templates over nodes with nothing recorded below them -/

end EditSession

mutual

/-- The text of a template whose nodes have nothing recorded below them: each node is written
as its own text. -/
def Template.plainText (t : SyntaxTree) : Template → String
  | .text x => x
  | .node n => t.source n
  | .concat ps => Template.plainTexts t ps

/-- The texts of templates, one after another. -/
def Template.plainTexts (t : SyntaxTree) : List Template → String
  | [] => ""
  | p :: ps => Template.plainText t p ++ Template.plainTexts t ps

end

mutual

/-- The nodes a template writes. -/
def Template.nodes : Template → List NodeId
  | .text _ => []
  | .node n => [n]
  | .concat ps => Template.nodesOf ps

/-- The nodes a list of templates writes. -/
def Template.nodesOf : List Template → List NodeId
  | [] => []
  | p :: ps => Template.nodes p ++ Template.nodesOf ps

end

theorem Template.plainTexts_eq_join (t : SyntaxTree) (ps : List Template) :
    Template.plainTexts t ps = String.join (ps.map (Template.plainText t)) := by
  induction ps with
  | nil => rfl
  | cons p ps ih => rw [plainTexts, ih, List.map_cons, String.join_cons]

namespace EditSession

variable {s : EditSession}

mutual

/-- A template whose nodes have nothing recorded below them is written as its plain text, given
fuel for its size and twice the height of the tree. -/
theorem render_eq_plainText (h : s.tree.WellFormed) : ∀ (tpl : Template) {fuel : Nat},
    (∀ n ∈ tpl.nodes, s.tree.contains n ∧ s.QuietBelow n) →
    tpl.weight + 2 * s.tree.size + 1 ≤ fuel → s.render fuel tpl = .ok (tpl.plainText s.tree)
  | .text x, fuel, _, hf => by
    obtain ⟨f, rfl⟩ : ∃ f, fuel = f + 1 := ⟨fuel - 1, by omega⟩
    rfl
  | .node n, fuel, hn, hf => by
    obtain ⟨f, rfl⟩ : ∃ f, fuel = f + 1 := ⟨fuel - 1, by omega⟩
    obtain ⟨hc, hq⟩ := hn n (by simp [Template.nodes])
    rw [render_succ_node, renderNode_eq_source h hc hq (by simp [Template.weight] at hf; omega)]
    rfl
  | .concat ps, fuel, hn, hf => by
    obtain ⟨f, rfl⟩ : ∃ f, fuel = f + 1 := ⟨fuel - 1, by omega⟩
    rw [render_succ_concat, mapM_render_eq_plainText h ps (by simpa [Template.nodes] using hn)
      (by simp [Template.weight] at hf; omega)]
    simp only [Template.plainText, Template.plainTexts_eq_join]
    rfl

theorem mapM_render_eq_plainText (h : s.tree.WellFormed) : ∀ (ps : List Template) {fuel : Nat},
    (∀ n ∈ Template.nodesOf ps, s.tree.contains n ∧ s.QuietBelow n) →
    Template.weights ps + 2 * s.tree.size + 1 ≤ fuel →
    ps.mapM (s.render fuel) = .ok (ps.map (Template.plainText s.tree))
  | [], _, _, _ => rfl
  | p :: ps, fuel, hn, hf => by
    have hw : Template.weights (p :: ps) = p.weight + Template.weights ps := rfl
    rw [List.mapM_cons,
      render_eq_plainText h p (fun n hn' => hn n (by simp [Template.nodesOf, hn'])) (by omega),
      mapM_render_eq_plainText h ps (fun n hn' => hn n (by simp [Template.nodesOf, hn']))
        (by omega)]
    rfl

end

/-- A change that is written without walking on: a removal, or a replacement by a template whose
nodes have nothing recorded below them. -/
def PlainChange (s : EditSession) : NodeChange → Prop
  | .replace tpl => ∀ n ∈ tpl.nodes, s.tree.contains n ∧ s.QuietBelow n
  | .remove => True
  | .wrapInBlock _ => False

/-- The edit that writes a plain change of a node. -/
def plainEdit (s : EditSession) (m : NodeId) : NodeChange → Nat → PendingEdit
  | .replace tpl, g => { range := s.tree.range m, text := tpl.plainText s.tree, group := g }
  | _, g => { range := s.removalRange m, text := "", group := g }

/-- The size of the templates of a change. -/
def changeWeight : NodeChange → Nat
  | .replace tpl => tpl.weight
  | .remove => 0
  | .wrapInBlock hs => Template.weights hs

/-- A plain change is written as its plain edit. -/
theorem renderChange_eq_plainEdit (h : s.tree.WellFormed) {m : NodeId} {c : NodeChange} {g : Nat}
    (hc : s.PlainChange c) {fuel : Nat} (hf : changeWeight c + 2 * s.tree.size + 2 ≤ fuel) :
    s.renderChange fuel m c g = .ok (s.plainEdit m c g) := by
  obtain ⟨f, rfl⟩ : ∃ f, fuel = f + 1 := ⟨fuel - 1, by omega⟩
  cases c with
  | replace tpl =>
    rw [renderChange_succ_replace, render_eq_plainText h tpl hc (by simp [changeWeight] at hf; omega)]
    rfl
  | remove => rfl
  | wrapInBlock _ => exact absurd hc id

end EditSession

end QuickFix
