import QuickFix.Proofs.SessionFinish

/-!
# Finishing a session writes the unit recursively

The unit can be written in two ways. `EditSession.finish` flattens the walk from the root into
edits of the whole text, sorts them into the edit groups and normalises them; the recursive
writing `EditSession.rendered` writes the root's change, or the root's text with every edit below
it applied, where a change written from a template writes the nodes of the template the same way.

A session recorded only by replacing, removing and hoisting (`EditSession.Recorded`) has no raw
insertion, plans no import and puts every change and every hoisted statement in one of its groups
(`EditSession.Recorded.plain`). Every edit the walk collects then lies in one of the groups and
has a range that does not run backwards (`EditSession.walk_forall`). So when those edits have
pairwise different ranges, the finished change writes exactly the recursive text
(`finish_apply_iff_rendered`), whatever the order of the groups.

Without different ranges it does not: two insertions at one offset, from two groups, are joined
in the order of the groups, while the recursive writing keeps the order of the tree
(`finish_joins_point_inserts_in_group_order`).
-/

namespace QuickFix

/-- A found key has its value in the list. -/
theorem List.mem_of_lookup_eq_some {α β : Type} [BEq α] [LawfulBEq α] :
    ∀ {l : List (α × β)} {a : α} {b : β}, l.lookup a = some b → (a, b) ∈ l
  | l, a, b, h => by
    obtain ⟨l₁, l₂, rfl, -⟩ := List.lookup_eq_some_iff.1 h
    simp

/-- Each value of a successful `mapM` in `Except` is the value of one step. -/
theorem List.exists_of_mem_mapM_eq_ok {ε α β : Type} {f : α → Except ε β} :
    ∀ {l : List α} {bs : List β}, l.mapM f = .ok bs → ∀ b ∈ bs, ∃ a ∈ l, f a = .ok b
  | [], bs, h, b, hb => by
    cases h
    cases hb
  | a :: l, bs, h, b, hb => by
    rw [List.mapM_cons] at h
    obtain ⟨b₀, h₀, hrest⟩ := except_bind_eq_ok.1 h
    obtain ⟨bs', hbs', heq⟩ := except_bind_eq_ok.1 hrest
    cases heq
    rcases List.mem_cons.1 hb with rfl | hb'
    · exact ⟨a, List.mem_cons_self, h₀⟩
    · obtain ⟨a', ha', hfa'⟩ := List.exists_of_mem_mapM_eq_ok hbs' b hb'
      exact ⟨a', List.mem_cons_of_mem a ha', hfa'⟩

/-- Renaming the error keeps a result. -/
theorem Except.mapError_eq_ok_iff {ε ε' α : Type} {x : Except ε α} {f : ε → ε'} {a : α} :
    x.mapError f = .ok a ↔ x = .ok a := by
  cases x <;> simp [Except.mapError]

/-- A computation that succeeds gives the value it reads back as. -/
theorem Except.eq_ok_of_toBool {ε α : Type} {x : Except ε α} (d : α) (h : x.toBool = true) :
    x = .ok (x.toOption.getD d) := by
  cases x with
  | error e => cases h
  | ok a => rfl

theorem Except.exists_of_map_eq_ok {ε α β : Type} {x : Except ε α} {f : α → β} {b : β}
    (h : x.map f = .ok b) : ∃ a, x = .ok a ∧ f a = b := by
  cases x with
  | error e => cases h
  | ok a => exact ⟨a, rfl, Except.ok.inj h⟩

/-- A node with a parent is a node of the tree. -/
theorem SyntaxTree.contains_of_parent_eq_some {t : SyntaxTree} {n p : NodeId}
    (h : t.parent n = some p) : t.contains n := by
  unfold SyntaxTree.parent SyntaxTree.node at h
  unfold SyntaxTree.contains
  by_contra hc
  rw [Array.getElem?_eq_none (by simpa using hc)] at h
  cases h

/-! ### Offsets at the ends of a text -/

namespace Text

theorem byteSize_reverse (cs : List Char) : byteSize cs.reverse = byteSize cs := by
  induction cs with
  | nil => rfl
  | cons c cs ih => simp [ih, Nat.add_comm]

theorem byteSize_dropWhile_le (p : Char → Bool) (cs : List Char) :
    byteSize (cs.dropWhile p) ≤ byteSize cs := by
  have h := congrArg byteSize (List.takeWhile_append_dropWhile (p := p) (l := cs))
  rw [byteSize_append] at h
  omega

/-- Skipping blanks backwards never moves forward. -/
theorem skipBlankBackward_le (cs : List Char) (o : Nat) : skipBlankBackward cs o ≤ o := by
  unfold skipBlankBackward
  calc byteSize ((takeBytes cs (clampOffset cs o)).reverse.dropWhile isBlank)
      ≤ byteSize (takeBytes cs (clampOffset cs o)) := by
        simpa [byteSize_reverse] using byteSize_dropWhile_le isBlank (takeBytes cs (clampOffset cs o)).reverse
    _ ≤ clampOffset cs o := byteSize_splitBytes_le cs _
    _ ≤ o := Nat.min_le_left _ _

theorem skipBlankBackward_zero (cs : List Char) : skipBlankBackward cs 0 = 0 :=
  Nat.le_zero.1 (skipBlankBackward_le cs 0)

theorem takeBytes_byteSize (cs : List Char) : takeBytes cs (byteSize cs) = cs := by
  simpa using takeBytes_append_byteSize cs []

theorem dropBytes_byteSize (cs : List Char) : dropBytes cs (byteSize cs) = [] := by
  simpa using dropBytes_append_byteSize cs []

/-- The text from offset zero to its size is the whole text. -/
theorem slice_zero_byteSize (s : String) : slice s 0 (byteSize s.toList) = s := by
  simp [slice, sliceBytes, dropBytes_zero, takeBytes_byteSize]

end Text

/-- An edit over the whole text writes its own text. -/
theorem applyEdits_whole (source : String) (f : FileId) (t : String) :
    applyEdits source [⟨f, ⟨0, Text.byteSize source.toList⟩, t⟩] = .ok t := by
  simp [applyEdits, checkBounds, boundsError?, Text.isBoundary, takeBytes_zero, applySorted,
    splitBytes_zero, Text.takeBytes_byteSize, Text.dropBytes_byteSize, Except.map]

namespace EditSession

variable (s : EditSession)

/-! ### What the walk collects -/

/-- The range that the edit of a change writes over: the node, its removal range, or the node
with the blanks before it for a new block. -/
def changeRange (m : NodeId) : NodeChange → Range
  | .replace _ => s.tree.range m
  | .remove => s.removalRange m
  | .wrapInBlock _ => ⟨Text.skipBlankBackward s.tree.text.toList (s.tree.range m).start,
      (s.tree.range m).stop⟩

variable {s}

theorem hoistEdit_eq_ok {f : Nat} {m : NodeId} {ins : List (Template × Nat)} {e : PendingEdit}
    (h : s.hoistEdit f m ins = .ok e) :
    e.range = Range.point (s.tree.range m).start ∧ e.group = (ins.head?.map (·.2)).getD 0 := by
  unfold hoistEdit at h
  obtain ⟨texts, -, he⟩ := except_bind_eq_ok.1 h
  cases he
  exact ⟨rfl, rfl⟩

/-- The edit of a change is in the change's group and writes over the change's range. -/
theorem renderChange_eq_ok {f : Nat} {m : NodeId} {c : NodeChange} {g : Nat} {e : PendingEdit}
    (h : s.renderChange f m c g = .ok e) : e.group = g ∧ e.range = s.changeRange m c := by
  match f, c with
  | 0, _ => cases h
  | f + 1, .replace t =>
    rw [renderChange_succ_replace] at h
    obtain ⟨x, -, he⟩ := except_bind_eq_ok.1 h
    cases he
    exact ⟨rfl, rfl⟩
  | f + 1, .remove =>
    cases h
    exact ⟨rfl, rfl⟩
  | f + 1, .wrapInBlock hs =>
    unfold renderChange at h
    obtain ⟨lines, -, h⟩ := except_bind_eq_ok.1 h
    obtain ⟨body, -, he⟩ := except_bind_eq_ok.1 h
    cases he
    exact ⟨rfl, rfl⟩

/-- Removing a node takes a range that does not run backwards: the dot after a receiver and the
separator next to an argument or parameter lie after the node's start. -/
theorem removalRange_start_le_stop (h : s.tree.WellFormed) (n : NodeId) :
    (s.removalRange n).start ≤ (s.removalRange n).stop := by
  have hn := h.start_le_stop n
  by_cases hrole : s.tree.role n = .expression
  · obtain ⟨h₁, h₂, -⟩ := removalRange_of_role_expression h hrole
    omega
  unfold removalRange
  dsimp only
  cases hp : s.tree.parent n with
  | none => exact hn
  | some p =>
    have hexpr : (s.tree.role n == .expression) = false := beq_false_of_ne hrole
    simp only [hexpr, Bool.false_and, Bool.false_eq_true, ↓reduceIte]
    by_cases hlist : (s.tree.role n == .argument || s.tree.role n == .parameter) = true
    · -- the node is one of the arguments or parameters of its parent, in source order
      set sibs := s.tree.childrenWithRole p (s.tree.role n)
      have hmem : n ∈ sibs := List.mem_filter.2
        ⟨(h.mem_children p n).2 ⟨SyntaxTree.contains_of_parent_eq_some hp, hp⟩,
          beq_self_eq_true _⟩
      obtain ⟨i, hi⟩ := Option.isSome_iff_exists.1 (List.isSome_idxOf?.2 hmem)
      obtain ⟨hlt, hsi, -⟩ := List.idxOf?_eq_some_iff.1 hi
      have hapart : sibs.Pairwise fun a b => (s.tree.range a).stop < (s.tree.range b).start :=
        (h.siblings_apart p).filter _
      simp only [hlist, ↓reduceIte, hi, Option.getD_some]
      split
      · -- up to the next one
        rename_i next hnext
        obtain ⟨hlt', rfl⟩ := List.getElem?_eq_some_iff.1 hnext
        have := List.pairwise_iff_getElem.1 hapart i (i + 1) hlt hlt' (Nat.lt_succ_self i)
        rw [hsi] at this
        dsimp only
        omega
      · split_ifs with hpos
        · -- from the one before
          have hprev : sibs[i - 1]? = some sibs[i - 1] := List.getElem?_eq_getElem (by omega)
          have := List.pairwise_iff_getElem.1 hapart (i - 1) i (by omega) hlt (by omega)
          rw [hsi] at this
          rw [hprev, Option.getD_some]
          dsimp only
          omega
        · exact hn
    · simp only [hlist, Bool.false_eq_true, ↓reduceIte]
      exact hn

/-- A change's range does not run backwards. -/
theorem changeRange_start_le_stop (h : s.tree.WellFormed) (m : NodeId) (c : NodeChange) :
    (s.changeRange m c).start ≤ (s.changeRange m c).stop := by
  have hm := h.start_le_stop m
  cases c with
  | replace t => exact hm
  | remove => exact removalRange_start_le_stop h m
  | wrapInBlock hs => exact (Text.skipBlankBackward_le _ _).trans hm

/-- A change of a root that spans the whole text writes over the whole text. -/
theorem changeRange_root (h : s.tree.WellFormed)
    (hroot : s.tree.range SyntaxTree.root = ⟨0, Text.byteSize s.tree.text.toList⟩) (c : NodeChange) :
    s.changeRange SyntaxTree.root c = ⟨0, Text.byteSize s.tree.text.toList⟩ := by
  cases c with
  | replace t => exact hroot
  | remove => simp [changeRange, removalRange, h.parent_root, hroot]
  | wrapInBlock hs => simp [changeRange, hroot, Text.skipBlankBackward_zero]

variable (s)

/-- **What the walk collects.** A property of every insertion of hoisted statements and of every
edit of a change holds of every edit the walk collects, at any fuel. -/
theorem walk_forall (P : PendingEdit → Prop)
    (hI : ∀ f m ins e, s.insertsBefore.lookup m = some ins → s.hoistEdit f m ins = .ok e → P e)
    (hE : ∀ f m c g e, s.changeOf? m = some (c, g) → s.renderChange f m c g = .ok e → P e) :
    ∀ fuel, (∀ n es, s.collectNode fuel n = .ok es → ∀ e ∈ es, P e) ∧
      (∀ n es, s.collectChildren fuel n = .ok es → ∀ e ∈ es, P e) := by
  intro fuel
  induction fuel with
  | zero => exact ⟨fun _ _ h => (by cases h), fun _ _ h => (by cases h)⟩
  | succ f ih =>
    constructor
    · intro n es h e he
      rw [collectNode_succ] at h
      obtain ⟨before, hb, h⟩ := except_bind_eq_ok.1 h
      obtain ⟨rest, hr, heq⟩ := except_bind_eq_ok.1 h
      cases heq
      rcases List.mem_append.1 he with hin | hin
      · -- the insertion of the statements hoisted before the node
        unfold hoisted at hb
        split at hb
        · rename_i ins hl
          cases hh : s.hoistEdit f n ins with
          | error err => rw [hh] at hb; cases hb
          | ok e' =>
            rw [hh] at hb
            cases hb
            rw [List.mem_singleton.1 hin]
            exact hI f n ins e' hl hh
        · cases hb
          cases hin
      · -- the node's change, or what its children collect
        unfold own at hr
        split at hr
        · rename_i c g hcg
          cases hc : s.renderChange f n c g with
          | error err => rw [hc] at hr; cases hr
          | ok e' =>
            rw [hc] at hr
            cases hr
            rw [List.mem_singleton.1 hin]
            exact hE f n c g e' hcg hc
        · exact ih.2 n rest hr e hin
    · intro n es h e he
      rw [collectChildren_succ] at h
      obtain ⟨parts, hparts, heq⟩ := except_bind_eq_ok.1 h
      cases heq
      obtain ⟨part, hpart, hin⟩ := List.mem_flatten.1 he
      obtain ⟨c, -, hc⟩ := List.exists_of_mem_mapM_eq_ok hparts part hpart
      exact ih.1 c part hc e hin

/-! ### Sessions recorded by replacing, removing and hoisting -/

/-- The number of groups is at least one. -/
theorem groupCount_pos : 0 < s.groupCount := by
  unfold groupCount
  split
  · exact Nat.one_pos
  · rename_i hne
    exact List.length_pos_iff.2 fun h => hne (by simp [h])

@[simp] theorem group_rawInserts : s.group.1.rawInserts = s.rawInserts := by
  unfold group; split <;> rfl

@[simp] theorem group_imports : s.group.1.imports = s.imports := by
  unfold group; split <;> rfl

@[simp] theorem group_insertsBefore : s.group.1.insertsBefore = s.insertsBefore := by
  unfold group; split <;> rfl

@[simp] theorem groupCount_group : s.group.1.groupCount = s.groupCount := by
  unfold group groupCount
  split <;> simp_all

/-- The current group is one of the groups the session writes. -/
theorem group_snd_lt : s.group.2 < s.groupCount := by
  unfold group groupCount
  split
  · simp_all
  · rename_i hne
    exact Nat.sub_lt (List.length_pos_iff.2 fun h => hne (by simp [h])) Nat.one_pos

theorem groupCount_le_beginGroup (d : String) : s.groupCount ≤ (s.beginGroup d).groupCount := by
  unfold groupCount beginGroup
  split <;> simp_all

/-- What recording by replacing, removing and hoisting keeps: no raw insertion and no import,
every change and every hoisted statement in a group the session writes, and statements hoisted
only before nodes that have a parent. -/
structure Plain : Prop where
  rawInserts_eq : s.rawInserts = []
  added_eq : s.imports.added = []
  change_group : ∀ e ∈ s.changes, e.2.2 < s.groupCount
  hoist_group : ∀ e ∈ s.insertsBefore, ∀ x ∈ e.2, x.2 < s.groupCount
  hoist_parent : ∀ e ∈ s.insertsBefore, s.tree.parent e.1 ≠ none

variable {s} {s' : EditSession}

theorem Plain.start {p : Project} {file : FileId} {fmt : Format} (h : start p file fmt = .ok s) :
    s.Plain := by
  unfold EditSession.start at h
  split at h
  · cases h
    exact ⟨rfl, rfl, fun _ h => (by cases h), fun _ h => (by cases h), fun _ h => (by cases h)⟩
  · cases h

/-- A step keeps a session plain when it keeps the unit, the raw insertions and the imports, loses
no group, and adds only changes and insertions in its groups, insertions before nodes with a
parent. -/
theorem Plain.of_step (h : s.Plain) (htree : s'.tree = s.tree) (hraw : s'.rawInserts = s.rawInserts)
    (himp : s'.imports = s.imports) (hgc : s.groupCount ≤ s'.groupCount)
    (hch : ∀ e ∈ s'.changes, e ∈ s.changes ∨ e.2.2 < s'.groupCount)
    (hins : ∀ e ∈ s'.insertsBefore, e ∈ s.insertsBefore ∨
      s.tree.parent e.1 ≠ none ∧ ∀ x ∈ e.2, x.2 < s'.groupCount) : s'.Plain where
  rawInserts_eq := hraw.trans h.rawInserts_eq
  added_eq := himp ▸ h.added_eq
  change_group e he := (hch e he).elim (fun he => Nat.lt_of_lt_of_le (h.change_group e he) hgc) id
  hoist_group e he x hx := (hins e he).elim
    (fun he => Nat.lt_of_lt_of_le (h.hoist_group e he x hx) hgc) fun h' => h'.2 x hx
  hoist_parent e he := htree ▸ (hins e he).elim (h.hoist_parent e) And.left

theorem Plain.beginGroup (h : s.Plain) (d : String) : (s.beginGroup d).Plain :=
  h.of_step rfl rfl rfl (groupCount_le_beginGroup s d) (fun _ he => .inl he) fun _ he => .inl he

theorem Plain.record (h : s.Plain) {n : NodeId} {c : NodeChange} (hr : s.record n c = .ok s') :
    s'.Plain := by
  rw [record_eq] at hr
  split_ifs at hr
  cases hr
  refine h.of_step (by simp) (by simp) (by simp) (groupCount_group s).ge (fun e he => ?_)
    fun e he => .inl (by simpa using he)
  -- the new change is in the current group
  rcases List.mem_append.1 he with he | he
  · exact .inl (by simpa using he)
  · rw [List.mem_singleton.1 he]
    exact .inr (Nat.lt_of_lt_of_le (group_snd_lt s) (groupCount_group s).ge)

theorem Plain.extractBefore (h : s.Plain) {stmt : NodeId} {t : Template}
    (hx : s.extractBefore stmt t = .ok s') : s'.Plain := by
  unfold EditSession.extractBefore check at hx
  by_cases hn : s.tree.contains stmt
  · simp only [hn, bind, Except.bind, pure, Except.pure] at hx
    simp at hx
    have hg : s.group.2 < s.group.1.groupCount := (groupCount_group s).symm ▸ group_snd_lt s
    split_ifs at hx with hlist
    · -- a statement of a block or a switch: the statement joins the insertions before it
      cases hx
      refine h.of_step (by simp) (by simp) (by simp) (groupCount_group s).ge
        (fun e he => .inl (by simpa using he)) fun e he => ?_
      simp only [List.mem_cons, List.mem_filter] at he
      rcases he with rfl | ⟨he, -⟩
      · refine .inr ⟨fun hp => by simp [hp] at hlist, fun x hx => ?_⟩
        rcases List.mem_append.1 hx with hx | hx
        · cases hl : s.insertsBefore.lookup stmt with
          | none => rw [hl] at hx; cases hx
          | some ins =>
            rw [hl] at hx
            exact Nat.lt_of_lt_of_le (h.hoist_group _ (List.mem_of_lookup_eq_some hl) x hx)
              (groupCount_group s).ge
        · rw [List.mem_singleton.1 hx]
          exact hg
      · exact .inl he
    · split at hx
      · -- a block already wraps the statement: its change grows in place, in its own group
        rename_i hoisted g0 hcg
        cases hx
        refine h.of_step (by simp) (by simp) (by simp) (groupCount_group s).ge (fun e he => ?_)
          fun e he => .inl (by simpa using he)
        simp only [List.mem_map] at he
        obtain ⟨e₀, he₀, rfl⟩ := he
        split
        · have hmem := List.mem_of_lookup_eq_some
            (show s.changes.lookup stmt = some (.wrapInBlock hoisted, g0) by simpa [changeOf?] using hcg)
          exact .inr (Nat.lt_of_lt_of_le (h.change_group _ hmem : g0 < _) (groupCount_group s).ge)
        · exact .inl he₀
      · simp [throw, throwThe, MonadExceptOf.throw] at hx
      · -- a new block around the statement, in the current group
        cases hx
        refine h.of_step (by simp) (by simp) (by simp) (groupCount_group s).ge (fun e he => ?_)
          fun e he => .inl (by simpa using he)
        simp only [List.mem_append, List.mem_singleton] at he
        rcases he with he | rfl
        · exact .inl he
        · exact .inr hg
  · simp [hn, bind, Except.bind] at hx

/-- The sessions reached from the start by beginning groups, replacing, removing and hoisting
statements, with no raw insertion and no import. -/
inductive Recorded (p : Project) (file : FileId) (fmt : Format) : EditSession → Prop
  | start {s : EditSession} : EditSession.start p file fmt = .ok s → Recorded p file fmt s
  | beginGroup {s : EditSession} (d : String) :
      Recorded p file fmt s → Recorded p file fmt (s.beginGroup d)
  | replace {s s' : EditSession} (n : NodeId) (t : Template) :
      Recorded p file fmt s → s.replace n t = .ok s' → Recorded p file fmt s'
  | remove {s s' : EditSession} (n : NodeId) :
      Recorded p file fmt s → s.remove n = .ok s' → Recorded p file fmt s'
  | extractBefore {s s' : EditSession} (n : NodeId) (t : Template) :
      Recorded p file fmt s → s.extractBefore n t = .ok s' → Recorded p file fmt s'

theorem Recorded.plain {p : Project} {file : FileId} {fmt : Format} (h : Recorded p file fmt s) :
    s.Plain := by
  induction h with
  | start hs => exact Plain.start hs
  | beginGroup d _ ih => exact ih.beginGroup d
  | replace n t _ hr ih => exact ih.record hr
  | remove n _ hr ih => exact ih.record hr
  | extractBefore n t _ hx ih => exact ih.extractBefore hx

/-- In a plain session on a well-formed tree, every edit the walk collects lies in one of the
session's groups and does not run backwards. -/
theorem Plain.walk_edit (h : s.Plain) (hwf : s.tree.WellFormed) {fuel : Nat} {n : NodeId}
    {es : List PendingEdit} (hw : s.collectNode fuel n = .ok es) :
    ∀ e ∈ es, e.group < s.groupCount ∧ e.range.start ≤ e.range.stop := by
  refine (s.walk_forall _ (fun f m ins e hl he => ?_) (fun f m c g e hcg he => ?_) fuel).1 n es hw
  · -- an insertion takes the group of its first statement
    obtain ⟨hrange, hgroup⟩ := hoistEdit_eq_ok he
    refine ⟨?_, by simp [hrange, Range.point]⟩
    rw [hgroup]
    cases ins with
    | nil => exact groupCount_pos s
    | cons x _ => exact h.hoist_group _ (List.mem_of_lookup_eq_some hl) x List.mem_cons_self
  · obtain ⟨hgroup, hrange⟩ := renderChange_eq_ok he
    rw [hgroup, hrange]
    exact ⟨h.change_group _ (List.mem_of_lookup_eq_some hcg), changeRange_start_le_stop hwf m c⟩

/-- Nothing is hoisted before the root of a well-formed tree in a plain session. -/
theorem Plain.lookup_root (h : s.Plain) (hwf : s.tree.WellFormed) :
    s.insertsBefore.lookup SyntaxTree.root = none := by
  cases hl : s.insertsBefore.lookup SyntaxTree.root with
  | none => rfl
  | some ins => exact absurd hwf.parent_root (h.hoist_parent _ (List.mem_of_lookup_eq_some hl))

/-! ### Writing the unit recursively -/

variable (s)

/-- The unit written recursively from its root: the text of the root's change if it has one,
else the root's text with every edit below it applied. -/
def rendered : Except FixError String :=
  match s.changeOf? SyntaxTree.root with
  | some (c, g) => (s.renderChange (s.fuel - 1) SyntaxTree.root c g).map (·.text)
  | none => s.renderNode s.fuel SyntaxTree.root

variable {s}

theorem fuel_pos : 0 < s.fuel :=
  Nat.mul_pos (Nat.succ_pos _) (by omega)

/-- Edits below a root that starts at offset zero keep their offsets. -/
theorem rebase_root (hroot : (s.tree.range SyntaxTree.root).start = 0) {pending : List PendingEdit}
    (hp : ∀ e ∈ pending, e.range.start ≤ e.range.stop) :
    pending.mapM (s.rebase SyntaxTree.root) = .ok (pending.map s.toEdit) := by
  induction pending with
  | nil => rfl
  | cons e rest ih =>
    have h0 : (s.tree.range SyntaxTree.root).start ≤ e.range.start := by
      rw [hroot]
      exact Nat.zero_le _
    have he : s.rebase SyntaxTree.root e = .ok (s.toEdit e) := by
      rw [rebase_of_le s h0 (hp e List.mem_cons_self)]
      simp [toEdit, hroot]
    rw [List.mapM_cons, he, ih fun e' he' => hp e' (List.mem_cons_of_mem e he')]
    rfl

/-- **The recursive writing is the walk applied to the text.** On a well-formed tree whose root
spans the text, a plain session writes recursively exactly what the edits the walk collects from
the root write over the text. -/
theorem rendered_eq_ok_iff (h : s.Plain) (hwf : s.tree.WellFormed)
    (hroot : s.tree.range SyntaxTree.root = ⟨0, Text.byteSize s.tree.text.toList⟩)
    {pending : List PendingEdit} (hp : s.collectNode s.fuel SyntaxTree.root = .ok pending)
    (out : String) :
    s.rendered = .ok out ↔ applyEdits s.tree.text (pending.map s.toEdit) = .ok out := by
  have hle : ∀ e ∈ pending, e.range.start ≤ e.range.stop := fun e he => (h.walk_edit hwf hp e he).2
  obtain ⟨f, hf⟩ : ∃ f, s.fuel = f + 1 := ⟨s.fuel - 1, by have := fuel_pos (s := s); omega⟩
  have hh : s.hoisted f SyntaxTree.root = .ok [] := by rw [hoisted, h.lookup_root hwf]
  rw [hf, collectNode_succ, hh] at hp
  obtain ⟨before, hb, hp⟩ := except_bind_eq_ok.1 hp
  cases hb
  unfold rendered
  rw [hf, Nat.add_sub_cancel]
  cases hc : s.changeOf? SyntaxTree.root with
  | none =>
    -- an unchanged root: its text with the edits of its children
    have ho : s.own f SyntaxTree.root = s.collectChildren f SyntaxTree.root := by rw [own, hc]
    rw [ho] at hp
    obtain ⟨rest, hrest, heq⟩ := except_bind_eq_ok.1 hp
    cases heq
    have hsource : s.tree.source SyntaxTree.root = s.tree.text := by
      rw [SyntaxTree.source, hroot]
      exact Text.slice_zero_byteSize _
    have hle' : ∀ e ∈ rest, e.range.start ≤ e.range.stop := fun e he => hle e (by simpa using he)
    simp only [renderNode_succ s f hwf.root_mem, hrest, hsource, rebase_root (by rw [hroot]) hle',
      List.nil_append, bind, Except.bind]
    exact Except.mapError_eq_ok_iff
  | some cg =>
    -- a changed root: one edit over the whole text
    obtain ⟨c, g⟩ := cg
    have ho : s.own f SyntaxTree.root = (fun e => [e]) <$> s.renderChange f SyntaxTree.root c g := by
      rw [own, hc]
    rw [ho] at hp
    cases he : s.renderChange f SyntaxTree.root c g with
    | error err => rw [he] at hp; cases hp
    | ok e =>
      rw [he] at hp
      cases hp
      have hrange : e.range = ⟨0, Text.byteSize s.tree.text.toList⟩ :=
        (renderChange_eq_ok he).2.trans (changeRange_root hwf hroot c)
      have hwhole := applyEdits_whole s.tree.text s.tree.file e.text
      rw [← hrange] at hwhole
      simp only [he, List.nil_append, List.map_cons, List.map_nil, toEdit, hwhole, Except.map, Except.ok.injEq]

/-- A plain session whose walk collects edits that pairwise do not conflict finishes. -/
theorem Plain.finish_eq_ok (h : s.Plain) (hwf : s.tree.WellFormed) (name : String)
    {pending : List PendingEdit} (hp : s.collectNode s.fuel SyntaxTree.root = .ok pending)
    (hpw : (pending.map s.toEdit).Pairwise fun a b => ¬ Conflict a b) :
    ∃ c, s.finish name = .ok c := by
  have hwalk := h.walk_edit hwf hp
  obtain ⟨flat, hflat, hfin⟩ :=
    s.finish_edits_perm name h.rawInserts_eq h.added_eq hp fun e he => (hwalk e he).1
  have hr : ∀ e ∈ flat, e.range.start ≤ e.range.stop := fun e he => by
    obtain ⟨x, hx, rfl⟩ := List.mem_map.1 (hflat.mem_iff.1 he)
    exact (hwalk x hx).2
  obtain ⟨N, hN⟩ := normalize_eq_ok_of_pairwise hr
    (hflat.symm.pairwise hpw fun h hc => h (conflict_symm hc))
  rw [hN] at hfin
  cases hc : s.finish name with
  | error err => rw [hc] at hfin; cases hfin
  | ok c => exact ⟨c, rfl⟩

end EditSession

/-- **Finishing writes the unit recursively.** On a well-formed tree whose root spans the text,
a session recorded by replacing, removing and hoisting statements, whose walk collects edits with
pairwise different ranges, writes with its finished change exactly what the recursive writing of
the unit writes. -/
theorem finish_apply_iff_rendered {p : Project} {file : FileId} {fmt : Format} {s : EditSession}
    (hrec : s.Recorded p file fmt) (hwf : s.tree.WellFormed)
    (hroot : s.tree.range SyntaxTree.root = ⟨0, Text.byteSize s.tree.text.toList⟩)
    {pending : List PendingEdit} (hp : s.collectNode s.fuel SyntaxTree.root = .ok pending)
    (hd : pending.Pairwise fun a b => a.range ≠ b.range) {name : String} {c : UnitChange}
    (hc : s.finish name = .ok c) (out : String) :
    c.apply s.tree.text = .ok out ↔ s.rendered = .ok out := by
  have h := hrec.plain
  have hwalk := h.walk_edit hwf hp
  obtain ⟨flat, hflat, hfin⟩ :=
    s.finish_edits_perm name h.rawInserts_eq h.added_eq hp fun e he => (hwalk e he).1
  -- the walk's edits as edits of the text: valid ranges, pairwise different
  have hr : ∀ e ∈ pending.map s.toEdit, e.range.start ≤ e.range.stop := by
    intro e he
    obtain ⟨x, hx, rfl⟩ := List.mem_map.1 he
    exact (hwalk x hx).2
  have hdm : (pending.map s.toEdit).Pairwise fun a b => a.range ≠ b.range := List.pairwise_map.2 hd
  -- normalising keeps each of them once
  have hperm : c.edits.Perm (pending.map s.toEdit) := by
    rw [hc] at hfin
    have hNf : normalize flat = .ok c.edits := Except.mapError_eq_ok_iff.1 hfin.symm
    have hdf : flat.Pairwise fun a b => a.target ≠ b.target :=
      (hflat.symm.pairwise hdm fun h h' => h h'.symm).imp fun h ht => h (congrArg Prod.snd ht)
    exact (normalize_perm_of_distinct (fun e he => hr e (hflat.mem_iff.1 he)) hdf hNf).trans hflat
  rw [UnitChange.apply, Except.mapError_eq_ok_iff, EditSession.rendered_eq_ok_iff h hwf hroot hp]
  exact applyEdits_perm_of_distinct hperm (hperm.symm.pairwise hdm fun h h' => h h'.symm)
    (fun e he => hr e (hperm.mem_iff.1 he)) _ _


/-! ### Two groups on one statement -/

/-- A method whose body is one expression statement around an empty name: `;`. -/
@[irreducible] def emptyNameStatement : Project :=
  let setup : Except String Setup := do
    let s ← [.type .classType "E" "p" none none "E",
        .method "run" "E" [] none {} false none "run"].foldlM Setup.declare {}
    let unit : Outline.SourceUnit :=
      { file := "E.java", package := some "p",
        types := [.mk ⟨12⟩ [.method ⟨0⟩ (some [.expr (.name { text := "" })])]] }
    match s.writeUnit unit with
    | .ok s => pure s
    | .error _ => throw "render"
  match setup with
  | .ok s => s.project
  | .error _ => default

/-- A statement hoisted before `;` in a first group, the method renamed in a second. -/
def hoistThenRename : Except FixError EditSession := do
  let s ← EditSession.start emptyNameStatement ⟨"E.java"⟩ default
  let s ← (s.beginGroup "first").extractBefore ⟨9⟩ (.text "a")
  (s.beginGroup "second").replace ⟨7⟩ (.text "go")

/-- The groups hold the hoisted statement before the new name, the walk the other way round; the
ranges differ, and the change writes the recursive text. -/
theorem finish_writes_rendered_across_groups :
    ∃ s, hoistThenRename = .ok s ∧
      ∃ c, s.finish "rewrite" = .ok c ∧
        c.apply s.tree.text = .ok ("package p;\n\npublic class E \x7b\n    void go() \x7b\n" ++
          "        a\n        ;\n    \x7d\n\x7d\n") ∧
        s.rendered = .ok ("package p;\n\npublic class E \x7b\n    void go() \x7b\n" ++
          "        a\n        ;\n    \x7d\n\x7d\n") := by
  have hs := Except.eq_ok_of_toBool default (x := hoistThenRename) (by decide +kernel)
  refine ⟨_, hs, ?_⟩
  set s := hoistThenRename.toOption.getD default with hsdef
  have hrec : EditSession.Recorded emptyNameStatement ⟨"E.java"⟩ default s := by
    have hsteps := hs
    rw [hoistThenRename] at hsteps
    obtain ⟨s₀, h₀, hsteps⟩ := except_bind_eq_ok.1 hsteps
    obtain ⟨s₁, h₁, h₂⟩ := except_bind_eq_ok.1 hsteps
    exact .replace _ _ (.beginGroup _ (.extractBefore _ _ (.beginGroup _ (.start h₀)) h₁)) h₂
  have hwf : s.tree.WellFormed := SyntaxTree.wellFormed_of_checkShape (by rw [hsdef]; decide +kernel)
  have hroot : s.tree.range SyntaxTree.root = ⟨0, Text.byteSize s.tree.text.toList⟩ := by
    rw [hsdef]; decide +kernel
  -- the walk: the new name, then the hoisted statement; the groups hold them the other way round
  obtain ⟨pending, hp, hpe⟩ := Except.exists_of_map_eq_ok (x := s.collectNode s.fuel SyntaxTree.root)
    (f := List.map s.toEdit) (b := [⟨⟨"E.java"⟩, ⟨38, 41⟩, "go"⟩, ⟨⟨"E.java"⟩, ⟨54, 54⟩, "a\n        "⟩])
    (by rw [hsdef]; decide +kernel)
  have hd : pending.Pairwise fun a b => a.range ≠ b.range := by
    have h : (pending.map s.toEdit).Pairwise fun a b => a.range ≠ b.range := by
      rw [hpe]
      decide
    rw [List.pairwise_map] at h
    exact h
  obtain ⟨c, hc⟩ := hrec.plain.finish_eq_ok hwf "rewrite" hp (by rw [hpe]; unfold Conflict; decide)
  have hrender : s.rendered = .ok ("package p;\n\npublic class E \x7b\n    void go() \x7b\n" ++
          "        a\n        ;\n    \x7d\n\x7d\n") := by
    refine (EditSession.rendered_eq_ok_iff hrec.plain hwf hroot hp _).2 ?_
    rw [hpe, applyEdits, List.mergeSort_of_pairwise (by decide), hsdef]
    decide +kernel
  exact ⟨c, hc, (finish_apply_iff_rendered hrec hwf hroot hp hd hc _).2 hrender, hrender⟩

/-- The empty name replaced in a first group, a statement hoisted before `;` in a second: two
insertions at one offset. -/
def replaceThenHoist : Except FixError EditSession := do
  let s ← EditSession.start emptyNameStatement ⟨"E.java"⟩ default
  let s ← (s.beginGroup "first").replace ⟨10⟩ (.text "b")
  (s.beginGroup "second").extractBefore ⟨9⟩ (.text "a")

/-- **Insertions at one offset follow the groups.** Normalising joins the two insertions at the
start of `;` in the order of their groups, the new name first, while the recursive writing puts
the hoisted statement first, in the order of the tree. -/
theorem finish_joins_point_inserts_in_group_order :
    ∃ s, replaceThenHoist = .ok s ∧
      ∃ c, s.finish "rewrite" = .ok c ∧
        c.apply s.tree.text = .ok ("package p;\n\npublic class E \x7b\n    void run() \x7b\n" ++
          "        ba\n        ;\n    \x7d\n\x7d\n") ∧
        s.rendered = .ok ("package p;\n\npublic class E \x7b\n    void run() \x7b\n" ++
          "        a\n        b;\n    \x7d\n\x7d\n") := by
  have hs := Except.eq_ok_of_toBool default (x := replaceThenHoist) (by decide +kernel)
  refine ⟨_, hs, ?_⟩
  set s := replaceThenHoist.toOption.getD default with hsdef
  have hplain : s.Plain := by
    have hsteps := hs
    rw [replaceThenHoist] at hsteps
    obtain ⟨s₀, h₀, hsteps⟩ := except_bind_eq_ok.1 hsteps
    obtain ⟨s₁, h₁, h₂⟩ := except_bind_eq_ok.1 hsteps
    exact (((EditSession.Plain.start h₀).beginGroup _).record h₁ |>.beginGroup _).extractBefore h₂
  have hwf : s.tree.WellFormed := SyntaxTree.wellFormed_of_checkShape (by rw [hsdef]; decide +kernel)
  have hroot : s.tree.range SyntaxTree.root = ⟨0, Text.byteSize s.tree.text.toList⟩ := by
    rw [hsdef]; decide +kernel
  -- the walk meets the hoisted statement first; the first group holds the new name
  obtain ⟨pending, hp, hpe⟩ := Except.exists_of_map_eq_ok (x := s.collectNode s.fuel SyntaxTree.root)
    (f := fun l => (l.map s.toEdit, s.groupedEdits l))
    (b := ([⟨⟨"E.java"⟩, ⟨54, 54⟩, "a\n        "⟩, ⟨⟨"E.java"⟩, ⟨54, 54⟩, "b"⟩],
      [⟨⟨"E.java"⟩, ⟨54, 54⟩, "b"⟩, ⟨⟨"E.java"⟩, ⟨54, 54⟩, "a\n        "⟩]))
    (by rw [hsdef]; decide +kernel)
  simp only [Prod.mk.injEq] at hpe
  obtain ⟨hwalk, hgroups⟩ := hpe
  have hN : normalize (s.groupedEdits pending) = .ok [⟨⟨"E.java"⟩, ⟨54, 54⟩, "ba\n        "⟩] := by
    rw [hgroups, normalize, TextEdit.sort, List.mergeSort_of_pairwise (by decide)]
    decide
  have hfin := s.finish_map_edits "rewrite" hplain.rawInserts_eq hplain.added_eq hp
  rw [hN] at hfin
  cases hc : s.finish "rewrite" with
  | error err => rw [hc] at hfin; cases hfin
  | ok c =>
    rw [hc] at hfin
    have hedits : c.edits = [⟨⟨"E.java"⟩, ⟨54, 54⟩, "ba\n        "⟩] := Except.ok.inj hfin
    refine ⟨c, rfl, ?_, ?_⟩
    · rw [UnitChange.apply, hedits, hsdef]
      decide +kernel
    · refine (EditSession.rendered_eq_ok_iff hplain hwf hroot hp _).2 ?_
      rw [hwalk, applyEdits, List.mergeSort_of_pairwise (by decide), hsdef]
      decide +kernel
end QuickFix
