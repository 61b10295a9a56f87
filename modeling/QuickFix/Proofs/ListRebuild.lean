import QuickFix.Proofs.ListRemovals

/-!
# Writing an argument or parameter list anew

`EditSession.rebuildList` replaces the argument list of a call or an instance creation, or the
parameter list of a method, by new items. It finds the list's parentheses by searching the
text: backwards from the first element for `(`, or forwards from the end of the owner's header
when the list is empty, then forwards from the last element for `)`. The children before the `(`
and after the `)` are kept as nodes, the text between them as it is.

Where the parentheses of a list stand is `SyntaxTree.ListInParens`, and the renderer puts them
there (`SourceUnit.framed_of_render`). This module shows that, where they stand so, the search
finds them and the rebuilt owner, written with nothing else recorded, is the owner's text with
what stands between its parentheses replaced by the items joined by `", "`
(`EditSession.render_rebuildList`); on a rendered unit this holds of every such list
(`rebuildList_of_render`).
-/

namespace QuickFix

open Text

/-! ### The children kept around the list -/

namespace EditSession

/-- One step of the walk over the children kept around a rebuilt list: the text from the cursor
to the child, then the child itself, with the cursor moved to the child's stop. -/
def keepChild (t : SyntaxTree) (acc : List Template × Nat) (c : NodeId) : List Template × Nat :=
  (acc.1 ++ [.text (slice t.text acc.2 (t.range c).start), .node c], (t.range c).stop)

/-- The walk over children that stand apart, from a boundary before all of them, adds parts that
are texts and those children, and that read as the text from the boundary to where the walk
stops: the stop of the last child, or the boundary itself. -/
theorem foldl_keepChild {t : SyntaxTree} (h : t.WellFormed) :
    ∀ (L : List NodeId) (acc : List Template) (cur : Nat),
      L.Pairwise (fun a b => (t.range a).stop < (t.range b).start) →
      (∀ c ∈ L, cur ≤ (t.range c).start) → IsCharBoundary t.text.toList cur →
      ∃ P e, L.foldl (keepChild t) (acc, cur) = (acc ++ P, e) ∧
        Template.plainTexts t P = slice t.text cur e ∧ cur ≤ e ∧
        (e = cur ∨ ∃ c ∈ L, e = (t.range c).stop) ∧ (∀ c ∈ L, (t.range c).stop ≤ e) ∧
        ∀ p ∈ P, (∃ x, p = .text x) ∨ ∃ c ∈ L, p = .node c
  | [], acc, cur, _, _, _ => ⟨[], cur, by simp, by simp [slice_self, Template.plainTexts], le_rfl,
      .inl rfl, by simp, by simp⟩
  | c :: L, acc, cur, hpw, hcur, hb => by
    rw [List.pairwise_cons] at hpw
    have hc := hcur c List.mem_cons_self
    have hcs := h.start_le_stop c
    obtain ⟨P, e, hfold, htext, hle, he, hstop, hparts⟩ :=
      foldl_keepChild h L (acc ++ [.text (slice t.text cur (t.range c).start), .node c])
        (t.range c).stop hpw.2 (fun c' hc' => (hpw.1 c' hc').le) (h.boundary c).2
    have heb : IsCharBoundary t.text.toList e := by
      rcases he with rfl | ⟨c', -, rfl⟩
      exacts [(h.boundary c).2, (h.boundary c').2]
    refine ⟨[.text (slice t.text cur (t.range c).start), .node c] ++ P, e, ?_, ?_, by omega,
      .inr ?_, ?_, ?_⟩
    · rw [List.foldl_cons, keepChild, hfold, List.append_assoc]
    · -- the text up to the child, the child, and what the walk reads after it
      rw [← slice_append_slice hb (h.boundary c).1 heb hc (hcs.trans hle),
        ← slice_append_slice (h.boundary c).1 (h.boundary c).2 heb hcs hle, ← htext]
      simp [Template.plainTexts, Template.plainText, SyntaxTree.source]
    · rcases he with rfl | ⟨c', hc', rfl⟩
      exacts [⟨c, List.mem_cons_self, rfl⟩, ⟨c', List.mem_cons_of_mem c hc', rfl⟩]
    · rintro c' (_ | ⟨_, hc'⟩)
      exacts [hle, hstop c' hc']
    · rintro p (_ | ⟨_, _ | ⟨_, hp⟩⟩)
      · exact .inl ⟨_, rfl⟩
      · exact .inr ⟨c, List.mem_cons_self, rfl⟩
      · rcases hparts p hp with hx | ⟨c', hc', rfl⟩
        exacts [.inl hx, .inr ⟨c', List.mem_cons_of_mem c hc', rfl⟩]

/-- The children of `o` that end by offset `a`, kept with the text before each from `o`'s start. -/
def keptBefore (t : SyntaxTree) (o : NodeId) (a : Nat) : List Template × Nat :=
  ((t.children o).filter fun c => decide ((t.range c).stop ≤ a)).foldl (keepChild t)
    ([], (t.range o).start)

/-- The children of `o` that start after offset `a`, kept with the text before each from `a`. -/
def keptAfter (t : SyntaxTree) (o : NodeId) (a : Nat) : List Template × Nat :=
  ((t.children o).filter fun c => decide ((t.range c).start > a)).foldl (keepChild t) ([], a)

/-- Items with `", "` between each two, as a rebuilt list writes them. -/
def separated (items : List Template) : List Template :=
  items.zipIdx.flatMap fun p => if p.2 > 0 then [.text ", ", p.1] else [p.1]

variable {s : EditSession} {o : NodeId} {r : Role}

theorem rebuildList_of_listInParens (hc : s.tree.contains o)
    (hp : s.tree.ListInParens s.tree.text.toList o r) (items : List Template) :
    s.rebuildList o r items = .ok (.concat ((keptBefore s.tree o (s.tree.listOpening o r)).1 ++
      ([.text (slice s.tree.text (keptBefore s.tree o (s.tree.listOpening o r)).2
        (s.tree.listOpening o r + 1))] ++ separated items) ++
      (keptAfter s.tree o (s.tree.listClosing o r)).1 ++
      [.text (slice s.tree.text (keptAfter s.tree o (s.tree.listClosing o r)).2
        (s.tree.range o).stop)])) := by
  obtain ⟨hopen, hclose, hstart, hstop, hin, -⟩ := hp
  have hfc := hclose.findByte_sliceBytes (p := (· == ')')) rfl rfl hstop
  unfold rebuildList
  cases hL : s.tree.childrenWithRole o r with
  | nil =>
    have hfo := hopen.findByte_sliceBytes (p := (· == '(')) rfl rfl
      (show s.tree.listOpening o r < (s.tree.range o).stop by
        simp only [SyntaxTree.listOpening, SyntaxTree.listClosing, hL, List.getLast?_nil] at hstop ⊢
        omega)
    simp only [SyntaxTree.listOpening, hL, SyntaxTree.headerEnd] at hfo
    simp only [SyntaxTree.listClosing, hL, SyntaxTree.headerEnd, List.getLast?_nil] at hfc
    simp only [hc, hL, Bool.not_true, Bool.false_eq_true, if_false, List.head?_nil, hfo,
      Option.map_some, Nat.add_zero, List.getLast?_nil, Option.map_none, Option.getD_none, hfc,
      SyntaxTree.listOpening, SyntaxTree.listClosing, SyntaxTree.headerEnd]
    rfl
  | cons a rest =>
    obtain ⟨z, hz⟩ : ∃ z, (a :: rest).getLast? = some z := ⟨_, List.getLast?_cons⟩
    have ha := (hin a (by rw [hL]; exact List.mem_cons_self)).1
    simp only [SyntaxTree.listOpening, hL] at hopen ha
    -- the search backwards from the first element stops at the `(` right before it
    have hfo := hopen.rfindByte_takeBytes (p := (· == '(')) rfl rfl
    rw [Nat.sub_add_cancel (by omega)] at hfo
    simp only [SyntaxTree.listClosing, hL, hz] at hfc
    simp only [hc, hL, Bool.not_true, Bool.false_eq_true, if_false, List.head?_cons, hfo, hz,
      Option.map_some, Option.getD_some, hfc, Nat.add_zero, SyntaxTree.listOpening,
      SyntaxTree.listClosing]
    rfl

/-! ### Writing the rebuilt owner -/

theorem flatMap_zipIdx_succ (rest : List Template) : ∀ n : Nat,
    (rest.zipIdx (n + 1)).flatMap (fun p => if p.2 > 0 then [.text ", ", p.1] else [p.1]) =
      rest.flatMap fun x => [.text ", ", x] := by
  induction rest with
  | nil => intro n; rfl
  | cons x rest ih =>
    intro n
    rw [List.zipIdx_cons, List.flatMap_cons, ih (n + 1), List.flatMap_cons, if_pos (by omega)]

theorem separated_cons (it : Template) (rest : List Template) :
    separated (it :: rest) = it :: rest.flatMap fun x => [.text ", ", x] := by
  rw [separated, List.zipIdx_cons, List.flatMap_cons, flatMap_zipIdx_succ rest 0, if_neg (by omega)]
  rfl

theorem join_cons_flatMap_sep (x : String) (xs : List String) :
    String.join (x :: xs.flatMap fun y => [", ", y]) = ", ".intercalate (x :: xs) := by
  induction xs generalizing x with
  | nil => simp
  | cons y ys ih =>
    rw [List.flatMap_cons, String.intercalate_cons_cons, ← ih y]
    simp [String.append_assoc]

/-- Each item after the first is written after a `", "`. -/
theorem mapM_render_flatMap_sep (fuel : Nat) : ∀ rest : List Template,
    (rest.flatMap fun x => [.text ", ", x]).mapM (s.render (fuel + 1)) =
      (rest.mapM (s.render (fuel + 1))).map fun xs => xs.flatMap fun y => [", ", y]
  | [] => rfl
  | x :: rest => by
    simp only [List.flatMap_cons, List.mapM_append, List.mapM_cons, List.mapM_nil,
      mapM_render_flatMap_sep fuel rest, render_succ_text]
    cases s.render (fuel + 1) x <;> cases rest.mapM (s.render (fuel + 1)) <;> rfl

/-- The items of a rebuilt list are written one after another with `", "` between each two. -/
theorem mapM_render_separated (fuel : Nat) (items : List Template) :
    ((separated items).mapM (s.render (fuel + 1))).map String.join =
      (items.mapM (s.render (fuel + 1))).map (", ".intercalate ·) := by
  cases items with
  | nil => rfl
  | cons it rest =>
    rw [separated_cons, List.mapM_cons, List.mapM_cons, mapM_render_flatMap_sep fuel rest]
    cases s.render (fuel + 1) it with
    | error e => rfl
    | ok x =>
      cases rest.mapM (s.render (fuel + 1)) with
      | error e => rfl
      | ok xs => exact congrArg Except.ok (join_cons_flatMap_sep x xs)

/-- In a session with nothing recorded, a part that is text or a node of the tree is written as
its plain text. -/
theorem render_part_of_fresh (h : s.tree.WellFormed) (hch : s.changes = [])
    (hins : s.insertsBefore = []) {fuel : Nat} (hf : 2 * s.tree.size + 2 ≤ fuel) {p : Template}
    (hp : (∃ x, p = .text x) ∨ ∃ c, s.tree.contains c ∧ p = .node c) :
    s.render fuel p = .ok (p.plainText s.tree) := by
  have hquiet : ∀ n, s.QuietBelow n := fun _ _ _ _ _ =>
    ⟨by rw [hins]; rfl, by rw [changeOf?, hch]; rfl⟩
  refine render_eq_plainText h p ?_ ?_
  · rcases hp with ⟨x, rfl⟩ | ⟨c, hc, rfl⟩
    · simp [Template.nodes]
    · simp only [Template.nodes, List.mem_singleton, forall_eq]
      exact ⟨hc, hquiet c⟩
  · rcases hp with ⟨x, rfl⟩ | ⟨c, -, rfl⟩ <;> simp only [Template.weight] <;> omega

/-- **The rebuilt list, written.** In a session with nothing recorded, where the list of role
`r` of `o` stands in parentheses, `rebuildList` succeeds, and its template is written as the
text of `o` up to and with its `(`, the items written one after another with `", "` between each
two, and the text of `o` from its `)` on. An item that cannot be written stops the writing with
its error. -/
theorem render_rebuildList (h : s.tree.WellFormed) (hch : s.changes = [])
    (hins : s.insertsBefore = []) (hc : s.tree.contains o)
    (hp : s.tree.ListInParens s.tree.text.toList o r) (items : List Template) :
    ∃ tpl, s.rebuildList o r items = .ok tpl ∧ ∀ fuel, 2 * s.tree.size + 3 ≤ fuel →
      s.render (fuel + 1) tpl = (items.mapM (s.render fuel)).map fun xs =>
        slice s.tree.text (s.tree.range o).start (s.tree.listOpening o r + 1) ++
          ", ".intercalate xs ++ slice s.tree.text (s.tree.listClosing o r) (s.tree.range o).stop := by
  refine ⟨_, rebuildList_of_listInParens hc hp items, fun fuel hf => ?_⟩
  obtain ⟨f, rfl⟩ : ∃ f, fuel = f + 1 := ⟨fuel - 1, by omega⟩
  have hcov : ∀ c ∈ s.tree.children o,
      (s.tree.range o).start ≤ (s.tree.range c).start ∧ (s.tree.range c).stop ≤ (s.tree.range o).stop :=
    fun c hc' => h.covers_of_mem_subtree (h.mem_subtree_of_mem_children hc')
  have hchild : ∀ c ∈ s.tree.children o, s.tree.contains c :=
    fun c hc' => (h.lt_of_mem_children hc').2
  -- the children before the `(`, and the text between them, read as the text up to it
  obtain ⟨P₁, e₁, hfold₁, htext₁, hle₁, he₁, -, hparts₁⟩ := foldl_keepChild h
    ((s.tree.children o).filter fun c => decide ((s.tree.range c).stop ≤ s.tree.listOpening o r))
    [] (s.tree.range o).start ((h.siblings_apart o).filter _)
    (fun c hc' => (hcov c (List.mem_of_mem_filter hc')).1) (h.boundary o).1
  -- the children after the `)`, and the text between them, read as the text from it
  obtain ⟨P₂, e₂, hfold₂, htext₂, hle₂, he₂, -, hparts₂⟩ := foldl_keepChild h
    ((s.tree.children o).filter fun c => decide ((s.tree.range c).start > s.tree.listClosing o r))
    [] (s.tree.listClosing o r) ((h.siblings_apart o).filter _)
    (fun c hc' => by simp only [List.mem_filter, decide_eq_true_eq] at hc'; omega)
    hp.closes.isCharBoundary
  have hrender : ∀ P : List Template, (∀ p ∈ P, (∃ x, p = .text x) ∨
      ∃ c ∈ s.tree.children o, p = .node c) →
      P.mapM (s.render (f + 1)) = .ok (P.map (·.plainText s.tree)) := fun P hP =>
    List.mapM_eq_ok_of_forall fun p hp' => render_part_of_fresh h hch hins (by omega)
      ((hP p hp').imp_right fun ⟨c, hc', hpc⟩ => ⟨c, hchild c hc', hpc⟩)
  have hP₁ := hrender P₁ fun p hp' => (hparts₁ p hp').imp_right
    fun ⟨c, hc', hpc⟩ => ⟨c, List.mem_of_mem_filter hc', hpc⟩
  have hP₂ := hrender P₂ fun p hp' => (hparts₂ p hp').imp_right
    fun ⟨c, hc', hpc⟩ => ⟨c, List.mem_of_mem_filter hc', hpc⟩
  -- where the two walks stop
  have he₁b : IsCharBoundary s.tree.text.toList e₁ ∧ e₁ ≤ s.tree.listOpening o r := by
    rcases he₁ with rfl | ⟨c, hc', rfl⟩
    · exact ⟨(h.boundary o).1, hp.start_le⟩
    · simp only [List.mem_filter, decide_eq_true_eq] at hc'
      exact ⟨(h.boundary c).2, hc'.2⟩
  have he₂b : IsCharBoundary s.tree.text.toList e₂ ∧ e₂ ≤ (s.tree.range o).stop := by
    rcases he₂ with rfl | ⟨c, hc', rfl⟩
    · exact ⟨hp.closes.isCharBoundary, hp.lt_stop.le⟩
    · exact ⟨(h.boundary c).2, (hcov c (List.mem_of_mem_filter hc')).2⟩
  have hsep := mapM_render_separated (s := s) f items
  simp only [keptBefore, keptAfter, hfold₁, hfold₂, List.nil_append, render_succ_concat,
    List.mapM_append, List.mapM_cons, List.mapM_nil, hP₁, hP₂, render_succ_text]
  cases hS : (separated items).mapM (s.render (f + 1)) <;>
    cases hI : items.mapM (s.render (f + 1)) <;>
    simp only [hS, hI, Except.map, Except.error.injEq, Except.ok.injEq, reduceCtorEq] at hsep
  · subst hsep
    rfl
  · rename_i ys xs
    -- glue the text up to the `(` and the text from the `)`
    have hopen := hp.opens.isCharBoundary_succ rfl
    rw [← slice_append_slice (h.boundary o).1 he₁b.1 hopen hle₁ (by omega),
      ← slice_append_slice hp.closes.isCharBoundary he₂b.1 (h.boundary o).2 hle₂ he₂b.2,
      ← htext₁, ← htext₂]
    refine congrArg Except.ok ?_
    simp [← hsep, Template.plainTexts_eq_join, String.join_append, String.append_assoc]

end EditSession

/-- **Writing an argument or parameter list anew.** On a rendered unit, a session asked to write
the argument list of a call or an instance creation, or the parameter list of a method, anew from
any templates succeeds. The list stands in its owner's parentheses, every other child outside
them, and with nothing else recorded the owner renders as its own text up to and with the `(`,
the templates rendered and joined by `", "`, and its own text from the `)` on. -/
theorem rebuildList_of_render {ctx : Outline.RenderContext} {u : Outline.SourceUnit}
    {t : SyntaxTree} {declared : List TypeId} {p : Project} {file : FileId} {fmt : Format}
    {s : EditSession} {o : NodeId} {r : Role}
    (hu : u.render ctx = .ok (t, declared)) (hp : p.unit? file = some t)
    (hs : EditSession.start p file fmt = .ok s) (ho : t.contains o)
    (hk : (t.kind o).parenList? = some r) (items : List Template) :
    t.ListInParens t.text.toList o r ∧
      ∃ tpl, s.rebuildList o r items = .ok tpl ∧ ∀ fuel, 2 * t.size + 3 ≤ fuel →
        s.render (fuel + 1) tpl = (items.mapM (s.render fuel)).map fun xs =>
          slice t.text (t.range o).start (t.listOpening o r + 1) ++ ", ".intercalate xs ++
            slice t.text (t.listClosing o r) (t.range o).stop := by
  obtain ⟨h, -⟩ := u.listsSeparated_of_render hu
  obtain ⟨hch, hins, -⟩ := EditSession.start_fresh hs
  have htree : s.tree = t := by
    rw [EditSession.start_of_unit hp fmt] at hs
    cases hs
    rfl
  subst htree
  have hframe := u.framed_of_render hu ho r hk
  exact ⟨hframe, EditSession.render_rebuildList h hch hins ho hframe items⟩

/-- What the statement below reads of the call `foo(1, 2, 3)`, node 23 of `threeArgumentsTree`:
that it is in the tree, that its list is of arguments, and its text around the list. -/
theorem threeArgumentsCall_facts :
    threeArgumentsTree.contains ⟨23⟩ = true ∧
      (threeArgumentsTree.kind ⟨23⟩).parenList? = some .argument ∧
      slice threeArgumentsTree.text (threeArgumentsTree.range ⟨23⟩).start
        (threeArgumentsTree.listOpening ⟨23⟩ .argument + 1) = "foo(" ∧
      slice threeArgumentsTree.text (threeArgumentsTree.listClosing ⟨23⟩ .argument)
        (threeArgumentsTree.range ⟨23⟩).stop = ")" := by
  decide +kernel

/-- The arguments of `foo(1, 2, 3)` written anew as the one template `x` make the call `foo(x)`. -/
theorem rebuildList_threeArguments :
    ∃ s, EditSession.start threeArgumentsProject ⟨"E.java"⟩ default = .ok s ∧
      ∃ tpl, s.rebuildList ⟨23⟩ .argument [.text "x"] = .ok tpl ∧
        s.render (2 * threeArgumentsTree.size + 4) tpl = .ok "foo(x)" := by
  have hs := EditSession.start_of_unit unit?_threeArgumentsProject default
  obtain ⟨ho, hk, hbefore, hafter⟩ := threeArgumentsCall_facts
  obtain ⟨-, tpl, htpl, hrender⟩ := rebuildList_of_render render_threeArgumentsUnit
    unit?_threeArgumentsProject hs ho hk [.text "x"]
  refine ⟨_, hs, tpl, htpl, ?_⟩
  rw [hrender _ le_rfl, hbefore, hafter, List.mapM_cons, List.mapM_nil, EditSession.render_succ_text]
  rfl

end QuickFix
