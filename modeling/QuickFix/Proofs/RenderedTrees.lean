import QuickFix.Proofs.RenderDecls

/-!
# The trees that rendering builds

Rendering a unit writes its text and builds its syntax tree in one pass. Every function of the
renderer keeps the layout of the builder over the text written so far (`Renders`), so the unit
opens its compilation unit on an empty text, writes the package, the imports and the types under
it, and closes it at the end of the text with no node left open. A builder in that state is
accepted by `finish`, and the nodes it holds make a well-formed tree of the text.

Main statement: `SourceUnit.render` always succeeds, with a well-formed tree whose root is the
compilation unit spanning the whole text, in which every simple name that carries an identifier
spells it and every other simple name names a package or an import
(`SourceUnit.render_wellFormed`).
-/

namespace QuickFix

namespace TreeBuilder

/-- Ranges in a chain, each starting before it stops, are apart pairwise. -/
theorem pairwise_of_isChain_apart {t : SyntaxTree} {l : List NodeId}
    (hc : l.IsChain fun a c => (t.range a).stop < (t.range c).start)
    (hle : ∀ n ∈ l, (t.range n).start ≤ (t.range n).stop) :
    l.Pairwise fun a c => (t.range a).stop < (t.range c).start := by
  -- the relation is transitive once the middle range of three is known not to be reversed
  let R : NodeId → NodeId → Prop := fun a c =>
    (t.range a).stop < (t.range c).start ∧ (t.range c).start ≤ (t.range c).stop
  have : Trans R R R :=
    ⟨fun h₁ h₂ => ⟨Nat.lt_of_lt_of_le h₁.1 (Nat.le_trans h₁.2 (Nat.le_of_lt h₂.1)), h₂.2⟩⟩
  exact (hc.imp_of_mem_imp fun _ c _ hc' h => ⟨h, hle c hc'⟩).pairwise.imp And.left

variable {b : TreeBuilder} {out : String}

/-- A node past the end of a builder reads with an empty range at the start of the text. -/
theorem view_range_of_le {n : NodeId} (hn : b.nodes.size ≤ n.idx) : b.view.range n = ⟨0, 0⟩ := by
  rw [SyntaxTree.range, view_node_of_le hn]
  rfl

/-- With no node open, the nodes of a builder of this shape make a well-formed tree of its
text. -/
theorem Shape.wellFormed (h : Shape [] b out) (hs : b.nodes.size ≠ 0) (file : FileId) :
    (⟨file, out, b.nodes⟩ : SyntaxTree).WellFormed := by
  have hl := h.placed.inv.linked file out
  -- every node, in the builder or past its end, has a range inside the text
  have hbounded : ∀ n, (b.view.range n).start ≤ (b.view.range n).stop ∧
      (b.view.range n).stop ≤ Text.byteSize out.toList := fun n => by
    by_cases hn : n.idx < b.nodes.size
    · exact h.placed.bounded n hn
    · rw [view_range_of_le (Nat.le_of_not_lt hn)]
      exact ⟨Nat.le_refl 0, Nat.zero_le _⟩
  refine ⟨SyntaxTree.contains_root_of_size_ne_zero hs, (h.root hs).2.2, fun n hn hne => ?_,
    hl.mem_children, fun n => (hbounded n).1, fun n => (hbounded n).2, fun n p _ hp => ?_,
    fun p => ?_, fun n => ?_⟩
  · have hn' : n.idx < b.nodes.size := by simpa [SyntaxTree.contains] using hn
    obtain ⟨p, hp⟩ := Option.ne_none_iff_exists'.1 (h.attached n hn' hne)
    exact ⟨p, hp, h.placed.inv.parent_lt n p hp⟩
  · -- with nothing open, every node is closed inside its parent
    obtain ⟨hstart, hclosed⟩ := h.placed.nested n p hp
    have hstop := (hclosed (by rw [h.stack]; exact List.not_mem_nil)).2
    simp only [Range.covers, Bool.and_eq_true, decide_eq_true_eq]
    exact ⟨hstart, hstop⟩
  · exact pairwise_of_isChain_apart ((h.apart p).imp fun _ _ h => h.2) fun n _ => (hbounded n).1
  · show IsCharBoundary out.toList (b.view.range n).start ∧
      IsCharBoundary out.toList (b.view.range n).stop
    by_cases hn : n.idx < b.nodes.size
    · exact h.boundary n hn
    · rw [view_range_of_le (Nat.le_of_not_lt hn)]
      exact ⟨⟨[], _, rfl, rfl⟩, ⟨[], _, rfl, rfl⟩⟩

end TreeBuilder

end QuickFix

namespace QuickFix.Outline

open TreeBuilder

namespace RenderM

variable {O : List NodeId} {r : Role} {st st₀ : RenderState} {n : NodeId}

theorem Spec.and {α : Type} {P : RenderState → Prop} {x : RenderM α}
    {Q₁ Q₂ : RenderState → α → RenderState → Prop} (h₁ : Spec P x Q₁) (h₂ : Spec P x Q₂) :
    Spec P x fun st a st' => Q₁ st a st' ∧ Q₂ st a st' :=
  fun ctx st hP => ⟨h₁ ctx st hP, h₂ ctx st hP⟩

/-- A node opened has the kind it was opened with. -/
theorem spec_start_kind (k : SyntaxKind) (r : Role) :
    Spec (Ready O r) (start k r) fun _ n st' => st'.builder.view.kind n = k := by
  refine (spec_start k r).mono ?_
  rintro st _ _ h ⟨rfl, rfl⟩
  show (st.builder.startNode k r _).1.view.kind _ = k
  rw [view_kind_startNode k r _ h.sound.placed.inv.current_lt, if_pos rfl]

/-- The compilation unit, opened on the empty text as the first node. -/
theorem spec_start_root :
    Spec (· = {}) (start .compilationUnit .root) fun _ n st' =>
      n = SyntaxTree.root ∧ Inside [] .root {} n st' ∧ Fresh st'.builder st'.out ∧
        pendingWeight st' = 0 := by
  refine (spec_start .compilationUnit .root).mono ?_
  rintro _ _ _ rfl ⟨rfl, rfl⟩
  have hcur := inv_empty.current_lt
  refine ⟨rfl, ⟨⟨Layout.start_root, grows_startNode inv_empty _ _ _,
    fun _ hp => absurd hp (Option.not_mem_none _), ?_, ?_, ⟨"", by simp⟩, ?_⟩, ?_⟩,
    fresh_startNode inv_empty _ _ _ _, rfl⟩
  · show (({} : TreeBuilder).startNode _ _ _).1.view.role _ = _
    rw [view_role_startNode _ _ _ hcur, if_pos rfl]
  · show (({} : TreeBuilder).startNode _ _ _).1.view.kind _ ≠ _
    rw [view_kind_startNode _ _ _ hcur, if_pos rfl]
    decide
  · show ((({} : TreeBuilder).startNode _ _ _).1.view.range _).start = _
    rw [view_range_startNode _ _ _ hcur, if_pos rfl]
    rfl
  · show ((({} : TreeBuilder).startNode _ _ _).1.view.kind _).parenList? = none
    rw [view_kind_startNode _ _ _ hcur, if_pos rfl]
    rfl

/-- The name of a package or an import is a simple name written without an identifier. -/
theorem Inside.leaf_unnamed (h : Inside O r st₀ n st) (hf : Fresh st.builder st.out)
    (hk : st.builder.view.kind n = .packageDeclaration ∨
      st.builder.view.kind n = .importDeclaration) (s : String) :
    Spec (· = st) (leaf .simpleName .name s) fun _ _ st' =>
      Inside O r st₀ n st' ∧ pendingWeight st' = pendingWeight st := by
  intro ctx s' hs'
  subst s'
  have hr : Ready (n :: O) .name st := h.ready hf (listReady_of_not_listed (by decide))
  obtain ⟨-, hst⟩ := (spec_leaf .simpleName .name s : Spec (· = st) _ _) ctx st rfl
  rw [hst]
  exact ⟨h.wrote (hr.wrote_leaf (hr.sound.leaf hr.ne_nil .simpleName .name s hr.fresh
    hr.listReady (fun _ => ⟨n, rfl, hk⟩) rfl) (.refl _) fun _ => ⟨rfl, rfl⟩), rfl⟩

/-- Closing a node keeps the nodes there are. -/
theorem Inside.finish_size (h : Inside O r st₀ n st) :
    Spec (· = st) finish fun _ _ st' => st'.builder.nodes.size = st.builder.nodes.size := by
  intro ctx s' hs'
  subst s'
  obtain ⟨-, hst⟩ := (spec_finish : Spec (· = st) _ _) ctx st rfl n O h.sound.stack
  rw [hst]
  simp [TreeBuilder.modify]

/-- A package or an import declaration: the keyword, the name, a semicolon, and then the
declaration given the name as identifier, after which the rendering goes on. -/
theorem spec_declaration_then {β : Type} {R : β → RenderState → Prop} {k : SyntaxKind}
    (h : Ready O r st) (hk : k = .packageDeclaration ∨ k = .importDeclaration) {kw : String}
    (hkw : kw ≠ "") (s : String) {rest : NodeId → RenderM β}
    (hrest : ∀ n st₁, Wrote O r st n st₁ → pendingWeight st₁ = pendingWeight st →
      Spec (· = st₁) (rest n) fun _ b st₂ => R b st₂) :
    Spec (· = st) (start k r >>= fun node => text kw >>= fun _ =>
        leaf .simpleName .name s >>= fun _ => text ";" >>= fun _ => finish >>= fun _ =>
        setIdentifier node s >>= fun _ => rest node) fun _ b st₂ => R b st₂ := by
  have hks : k ≠ .simpleName ∧ k.parenList? = none := by rcases hk with rfl | rfl <;> decide
  refine Spec.bind_eq (((spec_start_inside hks).and (spec_start_kind k r)).at_ h) ?_
  rintro n st₁ ⟨⟨hin₁, -, -, -, hp₁⟩, hk₁⟩
  refine Spec.bind_eq ((spec_text_fresh hkw).at_ hin₁.sound) ?_
  rintro _ st₂ ⟨hm₂, hfr₂⟩
  have hk₂ : st₂.builder.view.kind n = k := (hm₂.builder.node n).1.trans hk₁
  refine Spec.bind_eq ((hin₁.minor hm₂).leaf_unnamed hfr₂ (hk₂ ▸ hk) s) ?_
  rintro _ st₃ ⟨hin₃, hp₃⟩
  refine Spec.bind_eq (hin₃.text_fresh (by decide)) ?_
  rintro _ st₄ ⟨hin₄, -, hp₄⟩
  refine Spec.bind_eq (spec_finish_inside.at_ hin₄) ?_
  rintro _ st₅ ⟨-, hw₅, hk₅, -, hp₅⟩
  refine Spec.bind_eq (spec_setIdentifier _ fun _ he => he ▸ hk₅) ?_
  rintro _ st₆ hr₆
  exact hrest n st₆ (hw₅.retouch hr₆)
    (by rw [hr₆.pendingWeight_eq, hp₅, hp₄, hp₃, hm₂.pendingWeight_eq, hp₁])

/-- The weight of a unit's types, over a list split in two. -/
theorem typesWeight_append (ds ds' : List TypeDecl) :
    ((ds ++ ds').map TypeDecl.weight).foldr (· + ·) 0 =
      (ds.map TypeDecl.weight).foldr (· + ·) 0 + (ds'.map TypeDecl.weight).foldr (· + ·) 0 := by
  induction ds with
  | nil => simp
  | cons d ds ih => simp only [List.cons_append, List.map_cons, List.foldr_cons, ih]; omega

/-- A whole unit: from the empty state, the compilation unit is written as the one node without a
parent and closed at the end of the text, with every node of the unit under it. -/
theorem spec_unit {f : Nat} (u : SourceUnit) (hf : 2 * u.weight + 1 ≤ f) :
    Spec (· = {}) (unit f u) fun _ _ st' =>
      Wrote [] .root {} SyntaxTree.root st' ∧ st'.builder.nodes.size ≠ 0 := by
  rw [unit]
  extract_lets importEnd first₀ first₁ types imports
  refine Spec.bind_eq spec_start_root ?_
  rintro _ st₁ ⟨rfl, hin₁, hfr₁, hp₁⟩
  -- the types, each on a line of its own, then the compilation unit closed
  have htypes : ∀ st₂ u', Inside [] .root {} SyntaxTree.root st₂ → Fresh st₂.builder st₂.out →
      pendingWeight st₂ = 0 →
      Spec (· = st₂) (types u') fun _ _ st' =>
        Wrote [] .root {} SyntaxTree.root st' ∧ st'.builder.nodes.size ≠ 0 := by
    intro st₂ u' hin₂ hfr₂ hp₂
    -- annotations held back by a type are written by the next, so they count against its fuel
    let J : List TypeDecl → Bool → RenderState → Prop := fun done _ st' =>
      Inside [] .root {} SyntaxTree.root st' ∧ Fresh st'.builder st'.out ∧
        pendingWeight st' ≤ (done.map TypeDecl.weight).foldr (· + ·) 0
    refine Spec.bind_eq (Spec.forIn J ⟨hin₂, hfr₂, by omega⟩ ?_) ?_
    · rintro done d rest first st' hds ⟨hin, hfr, hp⟩
      have hw : 2 * (pendingWeight st' + d.weight) + 3 ≤ f := by
        have := congrArg (fun ds => (ds.map TypeDecl.weight).foldr (· + ·) 0) hds
        simp only [typesWeight_append, List.map_cons, List.foldr_cons] at this
        simp only [SourceUnit.weight] at hf
        omega
      -- one type and a line break, from a state whose end is fresh
      have htype : ∀ st₃, Inside [] .root {} SyntaxTree.root st₃ → Fresh st₃.builder st₃.out →
          pendingWeight st₃ = pendingWeight st' →
          Spec (· = st₃) (typeDecl f d .member >>= fun _ => text "\n" >>= fun _ =>
              pure (ForInStep.yield first₁))
            fun _ r' st'' => ∃ b', r' = .yield b' ∧ J (done ++ [d]) b' st'' := by
        intro st₃ hin₃ hfr₃ hp₃
        refine Spec.bind_eq (((renders f).typeDecl d .member [SyntaxTree.root]).at_
          ⟨hin₃.ready hfr₃ (listReady_of_not_listed (by decide)), by omega⟩) ?_
        rintro _ st₄ ⟨hw₄, hp₄⟩
        refine Spec.bind_eq ((spec_text_fresh (by decide)).at_ hw₄.sound) ?_
        rintro _ st₅ ⟨hm₅, hfr₅⟩
        refine Spec.pure_eq ⟨first₁, rfl, (hin₃.wrote hw₄).minor hm₅, hfr₅, ?_⟩
        rw [typesWeight_append, hm₅.pendingWeight_eq]
        simp only [List.map_cons, List.map_nil, List.foldr_cons, List.foldr_nil]
        omega
      cases first with
      | false =>
        rw [if_pos (by decide : (!false) = true)]
        refine Spec.bind_eq ((spec_text_fresh (by decide)).at_ hin.sound) ?_
        rintro _ st₃ ⟨hm₃, hfr₃⟩
        exact htype st₃ (hin.minor hm₃) hfr₃ hm₃.pendingWeight_eq
      | true =>
        rw [if_neg (by decide)]
        exact htype st' hin hfr rfl
    · rintro _ st₃ ⟨hin₃, -, -⟩
      refine Spec.bind_eq ((spec_finish_inside.at_ hin₃).and hin₃.finish_size) ?_
      rintro _ st₄ ⟨⟨-, hw, -⟩, hsize⟩
      exact Spec.pure_eq ⟨hw, hsize ▸ hin₃.sound.size_ne_zero (List.cons_ne_nil _ _)⟩
  -- the imports, each on a line of its own, and a blank line after them
  have himports : ∀ st₂ u', Inside [] .root {} SyntaxTree.root st₂ → Fresh st₂.builder st₂.out →
      pendingWeight st₂ = 0 →
      Spec (· = st₂) (imports u') fun _ _ st' =>
        Wrote [] .root {} SyntaxTree.root st' ∧ st'.builder.nodes.size ≠ 0 := by
    intro st₂ u' hin₂ hfr₂ hp₂
    let I : List (String × Bool) → PUnit → RenderState → Prop := fun _ _ st' =>
      Inside [] .root {} SyntaxTree.root st' ∧ Fresh st'.builder st'.out ∧ pendingWeight st' = 0
    refine Spec.bind_eq (Spec.forIn I ⟨hin₂, hfr₂, hp₂⟩ ?_) ?_
    · rintro done ⟨nm, isStatic⟩ rest _ st' _ ⟨hin, hfr, hp⟩
      refine spec_declaration_then (hin.ready hfr (listReady_of_not_listed (by decide)))
        (.inr rfl) (by split <;> decide) nm ?_
      intro node st₃ hw₃ hp₃
      -- the line break, after the modifier of a static import
      have hend : ∀ st₄ u'', Retouch st₃ st₄ →
          Spec (· = st₄) (importEnd u'') fun _ r' st'' =>
            ∃ b', r' = .yield b' ∧ I (done ++ [(nm, isStatic)]) b' st'' := by
        intro st₄ u'' hr₄
        refine Spec.bind_eq ((spec_text_fresh (by decide)).at_ (hw₃.retouch hr₄).sound) ?_
        rintro _ st₅ ⟨hm₅, hfr₅⟩
        exact Spec.pure_eq ⟨PUnit.unit, rfl, (hin.wrote (hw₃.retouch hr₄)).minor hm₅, hfr₅,
          by rw [hm₅.pendingWeight_eq, hr₄.pendingWeight_eq, hp₃, hp]⟩
      split
      · refine Spec.bind_eq (retouching_setModifiers _ _).spec ?_
        rintro u'' st₄ hr₄
        exact hend st₄ u'' hr₄
      · exact hend st₃ () (.refl _)
    · rintro _ st₃ ⟨hin₃, hfr₃, hp₃⟩
      split
      · refine Spec.bind_eq ((spec_text_fresh (by decide)).at_ hin₃.sound) ?_
        rintro u'' st₄ ⟨hm₄, hfr₄⟩
        exact htypes st₄ u'' (hin₃.minor hm₄) hfr₄ (hm₄.pendingWeight_eq.trans hp₃)
      · exact htypes st₃ () hin₃ hfr₃ hp₃
  -- the package, and a blank line after it
  split
  · refine spec_declaration_then (hin₁.ready hfr₁ (listReady_of_not_listed (by decide)))
      (.inl rfl) (by decide) _ ?_
    intro node st₂ hw₂ hp₂
    refine Spec.bind_eq ((spec_text_fresh (by decide)).at_ hw₂.sound) ?_
    rintro u' st₃ ⟨hm₃, hfr₃⟩
    exact himports st₃ u' ((hin₁.wrote hw₂).minor hm₃) hfr₃
      (by rw [hm₃.pendingWeight_eq, hp₂, hp₁])
  · exact himports st₁ () hin₁ hfr₁ hp₁

end RenderM

/-- Rendering a unit always succeeds. Its tree is well formed, and its root is the compilation
unit, spanning the whole text. A simple name that carries an identifier spells it; one that
carries none names a package or an import. -/
theorem SourceUnit.render_wellFormed (ctx : RenderContext) (u : SourceUnit) :
    ∃ t declared, u.render ctx = .ok (t, declared) ∧ t.WellFormed ∧
      t.kind SyntaxTree.root = .compilationUnit ∧
      t.range SyntaxTree.root = ⟨0, Text.byteSize t.text.toList⟩ ∧
      (∀ n s, t.kind n = .simpleName → t.identifier n = some s →
        Text.slice t.text (t.range n).start (t.range n).stop = s) ∧
      (∀ n, t.contains n → t.kind n = .simpleName → t.identifier n = none →
        ∃ p, t.parent n = some p ∧
          (t.kind p = .packageDeclaration ∨ t.kind p = .importDeclaration)) := by
  obtain ⟨hw, hs⟩ := RenderM.spec_unit u (Nat.le_add_right _ 3) ctx {} rfl
  generalize hst : (RenderM.unit (2 * u.weight + 4) u ctx {}).2 = st at hw hs
  have hl : Layout [] st.builder st.out := hw.sound
  have hrender : u.render ctx = (st.builder.finish ⟨u.file⟩ st.out).map
      fun t => (t, st.declared.toList) := by
    rw [← hst]
    rfl
  refine ⟨⟨⟨u.file⟩, st.out, st.builder.nodes⟩, st.declared.toList, ?_,
    hl.toShape.wellFormed hs _, (hl.root hs).1, ?_, fun n s hk hid => (hl.placed.named n s hk hid).2,
    fun n hn hk hid => hl.unnamed n (by simpa [SyntaxTree.contains] using hn) hk hid⟩
  · rw [hrender, hl.placed.finish_eq_ok hl.stack hs]
    rfl
  · -- the root starts the text and is closed at its end
    have hstart := (hl.root hs).2.1
    have hstop := hw.stop
    show st.builder.view.range SyntaxTree.root = ⟨0, Text.byteSize st.out.toList⟩
    rcases hr : st.builder.view.range SyntaxTree.root with ⟨a, c⟩
    rw [hr] at hstart hstop
    rw [← hstart, ← hstop]

/-- Where rendering a unit ends: the builder holds its nodes over the text written, laid out
with no node open, and the unit's tree is those nodes over that text. -/
theorem SourceUnit.render_eq_of_final (ctx : RenderContext) (u : SourceUnit) :
    ∃ st : RenderState, Layout [] st.builder st.out ∧ st.builder.nodes.size ≠ 0 ∧
      u.render ctx = .ok (⟨⟨u.file⟩, st.out, st.builder.nodes⟩, st.declared.toList) := by
  obtain ⟨hw, hs⟩ := RenderM.spec_unit u (Nat.le_add_right _ 3) ctx {} rfl
  generalize hst : (RenderM.unit (2 * u.weight + 4) u ctx {}).2 = st at hw hs
  have hl : Layout [] st.builder st.out := hw.sound
  have hrender : u.render ctx = (st.builder.finish ⟨u.file⟩ st.out).map
      fun t => (t, st.declared.toList) := by
    rw [← hst]
    rfl
  refine ⟨st, hl, hs, ?_⟩
  rw [hrender, hl.placed.finish_eq_ok hl.stack hs]
  rfl

/-- In a rendered unit every node has its frame: the argument list of a call or an instance
creation, and the parameter list of a method, stand in their owner's parentheses. -/
theorem SourceUnit.framed_of_render {ctx : RenderContext} {u : SourceUnit} {t : SyntaxTree}
    {declared : List TypeId} (hu : u.render ctx = .ok (t, declared)) {n : NodeId}
    (hn : t.contains n) : t.Framed t.text.toList n := by
  obtain ⟨st, hl, -, hrender⟩ := u.render_eq_of_final ctx
  rw [hrender] at hu
  simp only [Except.ok.injEq, Prod.mk.injEq] at hu
  obtain ⟨rfl, -⟩ := hu
  -- the tree and the builder's view differ only in their file and text
  have hv := hl.frames n (by simpa [SyntaxTree.contains] using hn) List.not_mem_nil
  refine SyntaxTree.framed_congr ?_ ?_ ?_ ?_ hv
  · rfl
  · exact fun _ _ => ⟨rfl, rfl⟩
  · rfl
  · rfl

/-- In a rendered unit only type bodies declare types: a node of a declaring kind whose binding
is a type is a type declaration or an anonymous class body. -/
theorem SourceUnit.isTypeBody_of_render {ctx : RenderContext} {u : SourceUnit} {t : SyntaxTree}
    {declared : List TypeId} (hu : u.render ctx = .ok (t, declared)) {n : NodeId} {ty : TypeId}
    (hb : t.binding n = some (.type ty)) (hd : SyntaxTree.isDeclarationKind (t.kind n) = true) :
    (t.kind n).isTypeBody = true := by
  obtain ⟨st, hl, -, hrender⟩ := u.render_eq_of_final ctx
  rw [hrender] at hu
  simp only [Except.ok.injEq, Prod.mk.injEq] at hu
  obtain ⟨rfl, -⟩ := hu
  exact hl.typed n _ hb hd ty rfl

end QuickFix.Outline
