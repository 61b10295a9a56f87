import QuickFix.Proofs.RenderSpecs

/-!
# Rendering expressions

What rendering does at each fuel is one specification per function of the renderer, gathered in
`Renders`: from a state whose layout is sound and whose held-back annotations fit the fuel, each
function writes its nodes under the innermost open node and keeps the layout. The fuel a function
needs is twice the weight of what it writes, twice the weight of the annotations held back, and a
constant of its own; every call it makes is at one fuel less, for a part of less weight, and
the annotations it leaves held back weigh at most what it wrote.

This module states the specifications and proves the steps for argument lists and expressions:
when every function meets its specification at fuel `f`, these do at `f + 1`.
-/

namespace QuickFix.Outline

open TreeBuilder

/-! ### Weights of lists -/

theorem listWeight_append (es es' : List Expr) :
    listWeight (es ++ es') = listWeight es + listWeight es' := by
  induction es with
  | nil => simp [listWeight]
  | cons e es ih => simp only [List.cons_append, listWeight, ih]; omega

namespace RenderM

/- Lean makes the equation lemmas of a definition when a proof first unfolds it. They are made here,
once, so that the proofs below, elaborated in parallel, do not each wait for them. -/
section
attribute [local simp] Expr.weight listWeight optWeight optDeclWeight args
end

/-! ### The specifications -/

/-- Ready to write under the innermost of `O` with role `r`, with fuel `f` enough for `need`. -/
def Fits (f : Nat) (O : List NodeId) (r : Role) (need : Nat) (st : RenderState) : Prop :=
  Ready O r st ∧ 2 * pendingWeight st + need ≤ f

/-- One node `n` of role `r` written, leaving held back at most `w` more. -/
def WroteWithin (O : List NodeId) (r : Role) (w : Nat) (st : RenderState) (n : NodeId)
    (st' : RenderState) : Prop :=
  Wrote O r st n st' ∧ pendingWeight st' ≤ pendingWeight st + w

/-- Nodes of role `r` added, leaving held back at most `w` more. -/
def AddedWithin (O : List NodeId) (r : Role) (w : Nat) (st st' : RenderState) : Prop :=
  Added O r st st' ∧ pendingWeight st' ≤ pendingWeight st + w

variable (f : Nat)

/-- Writing the annotations held back, each as a node of role `annotationUse`. -/
def FlushSpec : Prop := ∀ O, Spec (Fits f O .annotationUse 3) (flush f) fun st _ st' =>
  AddedWithin O .annotationUse 0 st st' ∧ Fresh st'.builder st'.out

def TypeDeclSpec : Prop := ∀ d r O,
  Spec (Fits f O r (2 * d.weight + 3)) (typeDecl f d r) (WroteWithin O r d.weight)

def TypeBodySpec : Prop := ∀ d O,
  Spec (fun st => Sound O st ∧ O ≠ [] ∧ 2 * pendingWeight st + 2 * d.weight + 2 ≤ f) (typeBody f d)
    fun st _ st' => AddedWithin O .member d.weight st st'

def MemberSpec : Prop := ∀ m O,
  Spec (Fits f O .member (2 * m.weight + 3)) (member f m) fun st _ st' =>
    AddedWithin O .member m.weight st st'

def MethodDeclSpec : Prop := ∀ m body O,
  Spec (Fits f O .member (2 * optStmtsWeight body + 4)) (methodDecl f m body) fun st _ st' =>
    AddedWithin O .member (optStmtsWeight body) st st'

def FragmentSpec : Prop := ∀ v init O,
  Spec (Fits f O .fragment (2 * optWeight init + 3)) (fragment f v init) fun st _ st' =>
    AddedWithin O .fragment (optWeight init) st st'

def BlockSpec : Prop := ∀ ss r O,
  Spec (Fits f O r (2 * stmtsWeight ss + 3)) (block f ss r) (WroteWithin O r (stmtsWeight ss))

/-- A nested statement writes its own separator first, so it needs no fresh end, but a role that
is no list's. -/
def NestedStmtSpec : Prop := ∀ s r O,
  Spec (fun st => Sound O st ∧ O ≠ [] ∧ ¬r.IsListed ∧ 2 * pendingWeight st + 2 * s.weight + 3 ≤ f)
    (nestedStmt f s r) fun st _ st' => AddedWithin O r s.weight st st'

def StmtSpec : Prop := ∀ s r O,
  Spec (Fits f O r (2 * s.weight + 2)) (stmt f s r) (WroteWithin O r s.weight)

/-- An argument list opens its own parenthesis, so it needs no fresh end, but no argument
written yet; its arguments stand in its parentheses. -/
def ArgsSpec : Prop := ∀ es O,
  Spec (fun st => Sound O st ∧ O ≠ [] ∧ NoList O .argument st ∧
      2 * pendingWeight st + 2 * listWeight es + 3 ≤ f) (args f es) fun st _ st' =>
    AddedWithin O .argument (listWeight es) st st' ∧ InParens O .argument st st'

def ExprSpec : Prop := ∀ e r O,
  Spec (Fits f O r (2 * e.weight + 2)) (expr f e r) (WroteWithin O r e.weight)

/-- What every function of the renderer does at fuel `f`. -/
structure Renders : Prop where
  flush : FlushSpec f
  typeDecl : TypeDeclSpec f
  typeBody : TypeBodySpec f
  member : MemberSpec f
  methodDecl : MethodDeclSpec f
  fragment : FragmentSpec f
  block : BlockSpec f
  nestedStmt : NestedStmtSpec f
  stmt : StmtSpec f
  args : ArgsSpec f
  expr : ExprSpec f

variable {f}

/-! ### Argument lists -/

/-- The arguments are written one after the other, separated by `", "`: each continues the list
the one before ended, and the first starts right after the `(`. -/
theorem argsSpec_succ (ih : Renders f) : ArgsSpec (f + 1) := by
  intro es O
  refine Spec.of_at fun st hpre => ?_
  obtain ⟨hs, hO, hnl, hb⟩ := hpre
  simp only [args]
  refine Spec.bind_eq (spec_text _) ?_
  rintro _ st₁ rfl
  -- after the elements `done`: the arguments added after the `(`, the annotations held back
  -- within their weight, and the list ready for the next element
  let I : List Expr → Bool → RenderState → Prop := fun done first st' =>
    Added O .argument st st' ∧ pendingWeight st' ≤ pendingWeight st + listWeight done ∧
      (∃ mid, st'.out = st.out ++ "(" ++ mid) ∧ ListFrom O .argument (st.out ++ "(") st' ∧
      (first = true → NoList O .argument st' ∧ Fresh st'.builder st'.out) ∧
      (first = false → ListReady .argument st'.builder (st'.out ++ ", ") ∧ ¬NoList O .argument st')
  have h₀ : I [] true { st with out := st.out ++ "(" } :=
    ⟨(Added.refl hs).minor (minor_text _ _), by rw [(minor_text _ _).pendingWeight_eq, listWeight]; omega,
      ⟨"", by simp⟩, ListFrom.of_noList ((minor_text _ _).noList hnl),
      fun _ => ⟨(minor_text _ _).noList hnl, fresh_text hs (by decide)⟩, fun h => absurd h (by decide)⟩
  refine Spec.bind_eq (Spec.forIn I h₀ ?_) ?_
  · rintro done e rest first st' hes ⟨hadd, hp, hmid, hlist, hfirst, hnext⟩
    have hw : listWeight es = listWeight done + e.weight + listWeight rest := by
      rw [hes, listWeight_append, listWeight]
      omega
    -- the element, after a separator only when the list has begun
    have helem : ∀ st₁ : RenderState, Minor st' st₁ → (NoList O .argument st' → st₁.out = st'.out) →
        Ready O .argument st₁ →
        Spec (· = st₁) (expr f e .argument >>= fun _ => pure (ForInStep.yield false))
          fun _ r st₃ => ∃ b', r = .yield b' ∧ I (done ++ [e]) b' st₃ := by
      intro st₁ hm hsep hready
      refine Spec.bind_eq ((ih.expr e .argument O).at_ ⟨hready, by rw [hm.pendingWeight_eq]; omega⟩) ?_
      rintro _ st₂ ⟨hw₂, hp₂⟩
      refine Spec.pure_eq ⟨false, rfl, (hadd.minor hm).trans hw₂.added, ?_,
        out_trans hmid (out_trans hm.out hw₂.out), hlist.wrote hadd.sound hm hsep hw₂,
        fun h => absurd h (by decide), fun _ => ⟨hw₂.listReady_sep, hw₂.not_noList hready.sound hO⟩⟩
      have := hm.pendingWeight_eq
      rw [listWeight_append, listWeight, listWeight]
      omega
    cases first with
    | true =>
      obtain ⟨hnl', hfr'⟩ := hfirst rfl
      rw [if_neg (by decide)]
      exact helem st' (Minor.refl st') (fun _ => rfl) (Ready.of_noList hadd.sound hO hfr' hnl')
    | false =>
      obtain ⟨hready, hbegun⟩ := hnext rfl
      rw [if_pos (by decide : (!false) = true)]
      refine Spec.bind_eq (spec_text _) ?_
      rintro _ _ rfl
      exact helem _ (minor_text _ _) (fun h => absurd h hbegun)
        ⟨(minor_text _ _).sound hadd.sound, hO, fresh_text hadd.sound (by decide), hready⟩
  · rintro _ st₂ ⟨hadd, hp, ⟨mid, hmid⟩, hlist, -, -⟩
    refine (spec_text _).mono ?_
    rintro _ _ _ rfl rfl
    exact ⟨⟨hadd.minor (minor_text _ _), by rw [(minor_text _ _).pendingWeight_eq]; exact hp⟩,
      InParens.of_listFrom hmid hlist (minor_text _ _) rfl⟩

/-! ### Expressions, one constructor at a time -/

section expr

variable (ih : Renders f) (r : Role) (O : List NodeId)
include ih

omit ih in
theorem spec_expr_name (x : NameRef) :
    Spec (Fits (f + 1) O r (2 * (Expr.name x).weight + 2)) (expr (f + 1) (.name x) r)
      (WroteWithin O r (Expr.name x).weight) := by
  refine Spec.of_at fun st hpre => ((spec_name r x).at_ hpre.1).mono ?_
  rintro _ _ _ rfl ⟨hw, hp⟩
  exact ⟨hw, by omega⟩

omit ih in
theorem spec_expr_typeName (t : TypeId) :
    Spec (Fits (f + 1) O r (2 * (Expr.typeName t).weight + 2)) (expr (f + 1) (.typeName t) r)
      (WroteWithin O r (Expr.typeName t).weight) := by
  refine Spec.of_at fun st hpre => ((spec_boundName r _).at_ hpre.1).mono ?_
  rintro _ _ _ rfl ⟨hw, hp⟩
  exact ⟨hw, by omega⟩

/-- A qualified name or a field access: the qualifier, a dot, and the simple name. -/
theorem spec_expr_dotted {k : SyntaxKind}
    (hk : k ≠ .simpleName ∧ k.parenList? = none ∧ SyntaxTree.isDeclarationKind k = false) {rq : Role}
    (hrq : ¬rq.IsListed) (q : Expr) (x : NameRef) {st : RenderState} (h : Ready O r st)
    (hb : 2 * pendingWeight st + 2 * q.weight + 2 ≤ f) :
    Spec (· = st) (do
      let node ← start k r
      let _ ← expr f q rq
      text "."
      let simple ← name .name x
      let _ ← finish
      copyBinding simple node
      return node) fun _ n st' => WroteWithin O r (q.weight + 1) st n st' := by
  refine Spec.bind_eq ((spec_start_writing hk.1).at_ h) ?_
  rintro n st₁ ⟨hw₁, hk₁, hfr₁, -, -, hp₁⟩
  have hin₁ : Inside O r st n st₁ := ⟨hw₁, by rw [hk₁]; exact hk.2.1⟩
  refine Spec.bind_eq ((ih.expr q rq (n :: O)).at_
    ⟨hin₁.ready hfr₁ (listReady_of_not_listed hrq), by omega⟩) ?_
  rintro _ st₂ ⟨hw₂, hp₂⟩
  refine Spec.bind_eq ((hin₁.wrote hw₂).text_fresh (by decide)).text_builder ?_
  rintro _ st₃ ⟨⟨hin₃, hfr₃, hp₃⟩, hb₃⟩
  refine Spec.bind_eq ((spec_name .name x).at_
    (hin₃.ready hfr₃ (listReady_of_not_listed (by decide)))) ?_
  rintro simple st₄ ⟨hw₄, hp₄⟩
  -- the node keeps its kind, which declares nothing, so it may take the name's binding
  have hk₄ : st₄.builder.view.kind n = k := by
    rw [hin₁.kind_eq (hw₂.grows.trans (hb₃ ▸ hw₄.grows)), hk₁]
  refine ((hin₃.wrote hw₄).finish_thenAt (hk₄ ▸ RetouchToAt.copyBinding_bind hk.2.2
    fun _ => retouchTo_pure n)).mono ?_
  rintro _ _ _ rfl ⟨rfl, hw, hp⟩
  exact ⟨hw, by omega⟩

theorem spec_expr_qualified (q : Expr) (x : NameRef) :
    Spec (Fits (f + 1) O r (2 * (Expr.qualified q x).weight + 2)) (expr (f + 1) (.qualified q x) r)
      (WroteWithin O r (Expr.qualified q x).weight) := by
  refine Spec.of_at fun st hpre => ?_
  obtain ⟨h, hb⟩ := hpre
  simp only [Expr.weight] at hb ⊢
  exact spec_expr_dotted ih r O (by decide) (by decide) q x h (by omega)

theorem spec_expr_field (q : Expr) (x : NameRef) :
    Spec (Fits (f + 1) O r (2 * (Expr.field q x).weight + 2)) (expr (f + 1) (.field q x) r)
      (WroteWithin O r (Expr.field q x).weight) := by
  refine Spec.of_at fun st hpre => ?_
  obtain ⟨h, hb⟩ := hpre
  simp only [Expr.weight] at hb ⊢
  exact spec_expr_dotted ih r O (by decide) (by decide) q x h (by omega)

omit ih in
theorem spec_expr_superField (v : VarId) :
    Spec (Fits (f + 1) O r (2 * (Expr.superField v).weight + 2)) (expr (f + 1) (.superField v) r)
      (WroteWithin O r (Expr.superField v).weight) := by
  refine Spec.of_at fun st hpre => ?_
  obtain ⟨h, hb⟩ := hpre
  refine Spec.bind_eq ((spec_start_writing (by decide)).at_ h) ?_
  rintro n st₁ ⟨hw₁, hk₁, hfr₁, -, -, hp₁⟩
  have hin₁ : Inside O r st n st₁ := ⟨hw₁, by rw [hk₁]; rfl⟩
  refine Spec.bind_eq (hin₁.text_fresh (by decide)).text_builder ?_
  rintro _ st₂ ⟨⟨hin₂, hfr₂, hp₂⟩, hb₂⟩
  refine Spec.bind_eq ((spec_boundName .name _).at_
    (hin₂.ready hfr₂ (listReady_of_not_listed (by decide)))) ?_
  rintro _ st₃ ⟨hw₃, hp₃⟩
  have hk₃ : st₃.builder.view.kind n = .superFieldAccess := by
    rw [hin₁.kind_eq (hb₂ ▸ hw₃.grows), hk₁]
  refine ((hin₂.wrote hw₃).finish_thenAt (hk₃ ▸ RetouchToAt.copyBinding_bind rfl
    fun _ => retouchTo_pure n)).mono ?_
  rintro _ _ _ rfl ⟨rfl, hw, hp⟩
  exact ⟨hw, by omega⟩

omit ih in
theorem spec_expr_thisRef (q : Option TypeId) :
    Spec (Fits (f + 1) O r (2 * (Expr.thisRef q).weight + 2)) (expr (f + 1) (.thisRef q) r)
      (WroteWithin O r (Expr.thisRef q).weight) := by
  refine Spec.of_at fun st hpre => ?_
  obtain ⟨h, hb⟩ := hpre
  refine Spec.bind_eq ((spec_start_inside (by decide)).at_ h) ?_
  rintro n st₁ ⟨hin₁, hfr₁, -, -, hp₁⟩
  split
  · -- the qualifier, a dot, then `this`
    refine Spec.bind_eq ((spec_boundName .qualifier _).at_
      (hin₁.ready hfr₁ (listReady_of_not_listed (by decide)))) ?_
    rintro _ st₂ ⟨hw₂, hp₂⟩
    refine Spec.bind_eq ((hin₁.wrote hw₂).text_fresh (by decide)) ?_
    rintro _ st₃ ⟨hin₃, -, hp₃⟩
    refine Spec.bind_eq (hin₃.text_fresh (by decide)) ?_
    rintro _ st₄ ⟨hin₄, -, hp₄⟩
    refine (hin₄.finish_then (retouching_get.bind fun _ => ?_)).mono ?_
    · split
      · exact (retouching_setTypeBinding _ _).bind fun _ => retouchTo_pure n
      · exact retouchTo_pure n
    · rintro _ _ _ rfl ⟨rfl, hw, hp⟩
      exact ⟨hw, by omega⟩
  · refine Spec.bind_eq (hin₁.text_fresh (by decide)) ?_
    rintro _ st₂ ⟨hin₂, -, hp₂⟩
    refine (hin₂.finish_then (retouching_get.bind fun _ => ?_)).mono ?_
    · split
      · exact (retouching_setTypeBinding _ _).bind fun _ => retouchTo_pure n
      · exact retouchTo_pure n
    · rintro _ _ _ rfl ⟨rfl, hw, hp⟩
      exact ⟨hw, by omega⟩

/-- A method call: the receiver and a dot if any, the name, then the arguments, which stand in
the call's parentheses. -/
theorem spec_expr_call (recv : Option Expr) (m : NameRef) (as : List Expr) :
    Spec (Fits (f + 1) O r (2 * (Expr.call recv m as).weight + 2)) (expr (f + 1) (.call recv m as) r)
      (WroteWithin O r (Expr.call recv m as).weight) := by
  refine Spec.of_at fun st hpre => ?_
  obtain ⟨h, hb⟩ := hpre
  simp only [Expr.weight] at hb ⊢
  refine Spec.bind_eq ((spec_start_writing (by decide)).at_ h) ?_
  rintro n st₁ ⟨hin₁, hk₁, hfr₁, hnl₁, -, hp₁⟩
  -- the name and the arguments, after the receiver, when no argument is written yet
  have hrest : ∀ st₂, Writing O r st n st₂ → st₂.builder.view.kind n = .methodInvocation →
      Fresh st₂.builder st₂.out → NoList (n :: O) .argument st₂ →
      pendingWeight st₂ ≤ pendingWeight st + optWeight recv →
      ∀ tail : RenderM NodeId, RetouchToAt n .methodInvocation tail n →
      Spec (· = st₂) (name .name m >>= fun _ => args f as >>= fun _ => finish >>= fun _ => tail)
        fun _ b st' => WroteWithin O r (optWeight recv + listWeight as + 1) st b st' := by
    intro st₂ hin₂ hk₂ hfr₂ hnl₂ hp₂ tail htail
    refine Spec.bind_eq ((spec_name .name m).at_
      (hin₂.ready hfr₂ (listReady_of_not_listed (by decide)))) ?_
    rintro _ st₃ ⟨hw₃, hp₃⟩
    have hnl₃ : NoList (n :: O) .argument st₃ := hw₃.added.noList hin₂.sound (by decide) hnl₂
    refine Spec.bind_eq ((ih.args as (n :: O)).at_ ⟨hw₃.sound, List.cons_ne_nil _ _, hnl₃,
      by omega⟩) ?_
    rintro _ st₄ ⟨⟨hadd₄, hp₄⟩, hpar₄⟩
    have hin₄ := (hin₂.wrote hw₃).added hadd₄
    have hk₄ : st₄.builder.view.kind n = .methodInvocation := by
      rw [hin₂.kind_eq (hw₃.grows.trans hadd₄.grows), hk₂]
    -- nothing follows the `)`
    refine (hin₄.finish_then (hin₄.framed_of_inParens (by rw [hk₄]; rfl) (by decide)
      (hin₂.wrote hw₃) hw₃ (.inl rfl) hnl₃ hadd₄ hpar₄ (Added.refl hin₄.sound)
      (show Role.anonymousBody ≠ .argument ∧ _ from by decide)) (hk₄ ▸ htail)).mono ?_
    rintro _ _ _ rfl ⟨rfl, hw, hp⟩
    exact ⟨hw, by omega⟩
  cases recv with
  | some e =>
    -- a receiver and a dot first
    simp only [optWeight] at hb hrest ⊢
    refine Spec.bind_eq ((ih.expr e .expression (n :: O)).at_
      ⟨hin₁.ready hfr₁ (listReady_of_not_listed (by decide)), by omega⟩) ?_
    rintro _ st₂ ⟨hw₂, hp₂⟩
    refine Spec.bind_eq ((spec_text_fresh (by decide)).at_ hw₂.sound) ?_
    rintro _ st₃ ⟨hm₃, hfr₃⟩
    have := hm₃.pendingWeight_eq
    refine hrest st₃ ((hin₁.wrote hw₂).minor hm₃)
      (by rw [hin₁.kind_eq (hw₂.grows.trans hm₃.builder.grows), hk₁]) hfr₃
      (hm₃.noList (hw₂.added.noList hin₁.sound (by decide) (hnl₁ _))) (by omega) _ ?_
    split
    · refine RetouchToAt.setBinding_bind (Binding.fitsKind_of_not_declaration rfl _) fun _ =>
        (retouching_typeOf _).bind fun _ => ?_
      split
      · exact (retouching_setTypeBinding _ _).bind fun _ => retouchTo_pure n
      · exact retouchTo_pure n
    · exact (retouchTo_pure n).at _ _
  | none =>
    refine hrest st₁ hin₁ hk₁ hfr₁ (hnl₁ _) (by omega) _ ?_
    split
    · refine RetouchToAt.setBinding_bind (Binding.fitsKind_of_not_declaration rfl _) fun _ =>
        (retouching_typeOf _).bind fun _ => ?_
      split
      · exact (retouching_setTypeBinding _ _).bind fun _ => retouchTo_pure n
      · exact retouchTo_pure n
    · exact (retouchTo_pure n).at _ _

/-- An instance creation: the type, the arguments, which stand in its parentheses, and an
anonymous class body if any. -/
theorem spec_expr_new (ty : TypeId) (ctor : Option MethodId) (as : List Expr)
    (body : Option TypeDecl) :
    Spec (Fits (f + 1) O r (2 * (Expr.new ty ctor as body).weight + 2))
      (expr (f + 1) (.new ty ctor as body) r) (WroteWithin O r (Expr.new ty ctor as body).weight) := by
  refine Spec.of_at fun st hpre => ?_
  obtain ⟨h, hb⟩ := hpre
  simp only [Expr.weight] at hb ⊢
  refine Spec.bind_eq ((spec_start_writing (by decide)).at_ h) ?_
  rintro n st₁ ⟨hin₁, hk₁, hfr₁, hnl₁, -, hp₁⟩
  refine Spec.bind_eq ((spec_text_fresh (by decide)).at_ hin₁.sound) ?_
  rintro _ st₂ ⟨hm₂, hfr₂⟩
  have hin₂ := hin₁.minor hm₂
  have := hm₂.pendingWeight_eq
  refine Spec.bind_eq ((spec_typeRef .type ty).at_
    (hin₂.ready hfr₂ (listReady_of_not_listed (by decide)))) ?_
  rintro _ st₃ ⟨hw₃, hp₃⟩
  have hnl₃ : NoList (n :: O) .argument st₃ :=
    hw₃.added.noList hin₂.sound (by decide) (hm₂.noList (hnl₁ _))
  refine Spec.bind_eq ((ih.args as (n :: O)).at_ ⟨hw₃.sound, List.cons_ne_nil _ _, hnl₃,
    by omega⟩) ?_
  rintro _ st₄ ⟨⟨hadd₄, hp₄⟩, hpar₄⟩
  have hin₄ := (hin₂.wrote hw₃).added hadd₄
  -- after the `)`, at most the anonymous body
  have hframe : ∀ st', Writing O r st n st' → Added (n :: O) .anonymousBody st₄ st' →
      (st'.builder.modify n (Node.closedAt (Text.byteSize st'.out.toList))).view.Framed
        st'.out.toList n := fun st' hin' hpost =>
    hin'.framed_of_inParens
      (by rw [hin₁.kind_eq (((hm₂.builder.grows.trans hw₃.grows).trans hadd₄.grows).trans
        hpost.grows), hk₁]; rfl)
      (by decide) (hin₂.wrote hw₃) hw₃ (.inr rfl) hnl₃ hadd₄ hpar₄ hpost (by decide)
  cases body with
  | some d =>
    -- the body, as an anonymous class declaration inside the node
    obtain ⟨bt, members⟩ := d
    simp only [optDeclWeight] at hb ⊢
    refine Spec.bind_eq ((spec_text_fresh (by decide)).at_ hin₄.sound) ?_
    rintro _ st₅ ⟨hm₅, hfr₅⟩
    have hin₅ := hin₄.minor hm₅
    have := hm₅.pendingWeight_eq
    refine Spec.bind_eq ((spec_start_writing (by decide)).at_
      (hin₅.ready hfr₅ (listReady_of_not_listed (by decide)))) ?_
    rintro anon st₆ ⟨haw₆, hak₆, -, -, -, hap₆⟩
    have hain₆ : Inside (n :: O) .anonymousBody st₅ anon st₆ := ⟨haw₆, by rw [hak₆]; rfl⟩
    -- an anonymous class body declares its type
    refine Spec.bind_eq (spec_setBinding anon _ fun _ he => by
      rw [he, hak₆]; exact Binding.fitsKind_of_isTypeBody rfl _) ?_
    rintro _ st₇ hr₇
    refine Spec.bind_eq (spec_text_minor _) ?_
    rintro _ st₈ hm₈
    have hain₈ := hain₆.minor (hr₇.minor.trans hm₈)
    have := (hr₇.minor.trans hm₈).pendingWeight_eq
    refine Spec.bind_eq ((ih.typeBody _ (anon :: n :: O)).at_
      ⟨hain₈.sound, List.cons_ne_nil _ _, by omega⟩) ?_
    rintro _ st₉ ⟨hadd₉, hp₉⟩
    refine Spec.bind_eq (spec_newline_fresh.at_ hadd₉.sound) ?_
    rintro _ st₁₀ ⟨hm₁₀, -⟩
    refine Spec.bind_eq (spec_text_minor _) ?_
    rintro _ st₁₁ hm₁₁
    have hain₁₁ := (hain₈.added hadd₉).minor (hm₁₀.trans hm₁₁)
    have := (hm₁₀.trans hm₁₁).pendingWeight_eq
    refine Spec.bind_eq (spec_finish_inside.at_ hain₁₁) ?_
    rintro _ st₁₂ ⟨-, haw, -, -, hap⟩
    refine ((hin₅.wrote haw).finish_then
      (hframe _ (hin₅.wrote haw) (((Added.refl hin₄.sound).minor hm₅).trans haw.added)) ?_).mono ?_
    · refine RetouchTo.at ?_ _ _
      split
      · exact (retouching_setBinding _ _ (by simp)).bind fun _ =>
          (retouching_setTypeBinding _ _).bind fun _ => retouchTo_pure n
      · exact (retouching_setTypeBinding _ _).bind fun _ => retouchTo_pure n
    · rintro _ _ _ rfl ⟨rfl, hw, hp⟩
      exact ⟨hw, by omega⟩
  | none =>
    refine (hin₄.finish_then (hframe _ hin₄ (Added.refl hin₄.sound)) ?_).mono ?_
    · refine RetouchTo.at ?_ _ _
      split
      · exact (retouching_setBinding _ _ (by simp)).bind fun _ =>
          (retouching_setTypeBinding _ _).bind fun _ => retouchTo_pure n
      · exact (retouching_setTypeBinding _ _).bind fun _ => retouchTo_pure n
    · rintro _ _ _ rfl ⟨rfl, hw, hp⟩
      exact ⟨hw, by omega⟩

/-- An assignment or an infix operation: two operands around the operator. -/
theorem spec_expr_assign (l rhs : Expr) :
    Spec (Fits (f + 1) O r (2 * (Expr.assign l rhs).weight + 2)) (expr (f + 1) (.assign l rhs) r)
      (WroteWithin O r (Expr.assign l rhs).weight) := by
  refine Spec.of_at fun st hpre => ?_
  obtain ⟨h, hb⟩ := hpre
  simp only [Expr.weight] at hb ⊢
  refine Spec.bind_eq ((spec_start_inside (by decide)).at_ h) ?_
  rintro n st₁ ⟨hin₁, hfr₁, -, -, hp₁⟩
  refine Spec.bind_eq ((ih.expr l .leftSide (n :: O)).at_
    ⟨hin₁.ready hfr₁ (listReady_of_not_listed (by decide)), by omega⟩) ?_
  rintro left st₂ ⟨hw₂, hp₂⟩
  refine Spec.bind_eq ((hin₁.wrote hw₂).text_fresh (by decide)) ?_
  rintro _ st₃ ⟨hin₃, hfr₃, hp₃⟩
  refine Spec.bind_eq ((ih.expr rhs .rightSide (n :: O)).at_
    ⟨hin₃.ready hfr₃ (listReady_of_not_listed (by decide)), by omega⟩) ?_
  rintro _ st₄ ⟨hw₄, hp₄⟩
  refine ((hin₃.wrote hw₄).finish_named_then "=" ((retouching_typeOfNode _).bind fun _ => ?_)).mono ?_
  · split
    · exact (retouching_setTypeBinding _ _).bind fun _ => retouchTo_pure n
    · exact retouchTo_pure n
  · rintro _ _ _ rfl ⟨rfl, hw, hp⟩
    exact ⟨hw, by omega⟩

theorem spec_expr_binary (l : Expr) (op : String) (rhs : Expr) :
    Spec (Fits (f + 1) O r (2 * (Expr.binary l op rhs).weight + 2))
      (expr (f + 1) (.binary l op rhs) r) (WroteWithin O r (Expr.binary l op rhs).weight) := by
  refine Spec.of_at fun st hpre => ?_
  obtain ⟨h, hb⟩ := hpre
  simp only [Expr.weight] at hb ⊢
  refine Spec.bind_eq ((spec_start_inside (by decide)).at_ h) ?_
  rintro n st₁ ⟨hin₁, hfr₁, -, -, hp₁⟩
  refine Spec.bind_eq ((ih.expr l .operand (n :: O)).at_
    ⟨hin₁.ready hfr₁ (listReady_of_not_listed (by decide)), by omega⟩) ?_
  rintro left st₂ ⟨hw₂, hp₂⟩
  refine Spec.bind_eq ((hin₁.wrote hw₂).text_fresh (append_ne_empty _ (by decide))) ?_
  rintro _ st₃ ⟨hin₃, hfr₃, hp₃⟩
  refine Spec.bind_eq ((ih.expr rhs .operand (n :: O)).at_
    ⟨hin₃.ready hfr₃ (listReady_of_not_listed (by decide)), by omega⟩) ?_
  rintro _ st₄ ⟨hw₄, hp₄⟩
  refine ((hin₃.wrote hw₄).finish_named_then op ?_).mono ?_
  · -- the type of a test is `boolean`, of any other operation its left operand's
    split
    · refine (retouching_pure _).bind fun _ => ?_
      beta_reduce
      split
      · exact (retouching_setTypeBinding _ _).bind fun _ => retouchTo_pure n
      · exact retouchTo_pure n
    · refine (retouching_typeOfNode _).bind fun _ => ?_
      beta_reduce
      split
      · exact (retouching_setTypeBinding _ _).bind fun _ => retouchTo_pure n
      · exact retouchTo_pure n
  · rintro _ _ _ rfl ⟨rfl, hw, hp⟩
    exact ⟨hw, by omega⟩

theorem spec_expr_negation (e : Expr) :
    Spec (Fits (f + 1) O r (2 * (Expr.negation e).weight + 2)) (expr (f + 1) (.negation e) r)
      (WroteWithin O r (Expr.negation e).weight) := by
  refine Spec.of_at fun st hpre => ?_
  obtain ⟨h, hb⟩ := hpre
  simp only [Expr.weight] at hb ⊢
  refine Spec.bind_eq ((spec_start_inside (by decide)).at_ h) ?_
  rintro n st₁ ⟨hin₁, -, -, -, hp₁⟩
  refine Spec.bind_eq (hin₁.text_fresh (by decide)) ?_
  rintro _ st₂ ⟨hin₂, hfr₂, hp₂⟩
  refine Spec.bind_eq ((ih.expr e .operand (n :: O)).at_
    ⟨hin₂.ready hfr₂ (listReady_of_not_listed (by decide)), by omega⟩) ?_
  rintro _ st₃ ⟨hw₃, hp₃⟩
  refine ((hin₂.wrote hw₃).finish_named_then "!"
    ((retouching_setTypeBinding _ _).bind fun _ => retouchTo_pure n)).mono ?_
  rintro _ _ _ rfl ⟨rfl, hw, hp⟩
  exact ⟨hw, by omega⟩

omit ih in
theorem spec_expr_lit (s : String) (k : LitKind) :
    Spec (Fits (f + 1) O r (2 * (Expr.lit s k).weight + 2)) (expr (f + 1) (.lit s k) r)
      (WroteWithin O r (Expr.lit s k).weight) := by
  refine Spec.of_at fun st hpre => ?_
  refine Spec.bind_eq ((spec_leaf_wrote (by decide) s).at_ hpre.1) ?_
  rintro n st₁ ⟨hw₁, hp₁⟩
  refine (hw₁.then_retouch ((retouching_setTypeBinding _ _).bind fun _ => retouchTo_pure n)).mono ?_
  rintro _ _ _ rfl ⟨rfl, hw, hr⟩
  have := hr.pendingWeight_eq
  exact ⟨hw, by omega⟩

theorem spec_expr_paren (e : Expr) :
    Spec (Fits (f + 1) O r (2 * (Expr.paren e).weight + 2)) (expr (f + 1) (.paren e) r)
      (WroteWithin O r (Expr.paren e).weight) := by
  refine Spec.of_at fun st hpre => ?_
  obtain ⟨h, hb⟩ := hpre
  simp only [Expr.weight] at hb ⊢
  refine Spec.bind_eq ((spec_start_inside (by decide)).at_ h) ?_
  rintro n st₁ ⟨hin₁, -, -, -, hp₁⟩
  refine Spec.bind_eq (hin₁.text_fresh (by decide)) ?_
  rintro _ st₂ ⟨hin₂, hfr₂, hp₂⟩
  refine Spec.bind_eq ((ih.expr e .expression (n :: O)).at_
    ⟨hin₂.ready hfr₂ (listReady_of_not_listed (by decide)), by omega⟩) ?_
  rintro _ st₃ ⟨hw₃, hp₃⟩
  refine Spec.bind_eq ((hin₂.wrote hw₃).text_fresh (by decide)) ?_
  rintro _ st₄ ⟨hin₄, -, hp₄⟩
  refine (hin₄.finish_then ((retouching_typeOfNode _).bind fun _ => ?_)).mono ?_
  · split
    · exact (retouching_setTypeBinding _ _).bind fun _ => retouchTo_pure n
    · exact retouchTo_pure n
  · rintro _ _ _ rfl ⟨rfl, hw, hp⟩
    exact ⟨hw, by omega⟩

theorem spec_expr_castTo (t : TypeId) (e : Expr) :
    Spec (Fits (f + 1) O r (2 * (Expr.castTo t e).weight + 2)) (expr (f + 1) (.castTo t e) r)
      (WroteWithin O r (Expr.castTo t e).weight) := by
  refine Spec.of_at fun st hpre => ?_
  obtain ⟨h, hb⟩ := hpre
  simp only [Expr.weight] at hb ⊢
  refine Spec.bind_eq ((spec_start_inside (by decide)).at_ h) ?_
  rintro n st₁ ⟨hin₁, -, -, -, hp₁⟩
  refine Spec.bind_eq (hin₁.text_fresh (by decide)) ?_
  rintro _ st₂ ⟨hin₂, hfr₂, hp₂⟩
  refine Spec.bind_eq ((spec_typeRef .type t).at_
    (hin₂.ready hfr₂ (listReady_of_not_listed (by decide)))) ?_
  rintro _ st₃ ⟨hw₃, hp₃⟩
  refine Spec.bind_eq ((hin₂.wrote hw₃).text_fresh (by decide)) ?_
  rintro _ st₄ ⟨hin₄, hfr₄, hp₄⟩
  refine Spec.bind_eq ((ih.expr e .expression (n :: O)).at_
    ⟨hin₄.ready hfr₄ (listReady_of_not_listed (by decide)), by omega⟩) ?_
  rintro _ st₅ ⟨hw₅, hp₅⟩
  refine ((hin₄.wrote hw₅).finish_then
    ((retouching_setTypeBinding _ _).bind fun _ => retouchTo_pure n)).mono ?_
  rintro _ _ _ rfl ⟨rfl, hw, hp⟩
  exact ⟨hw, by omega⟩

end expr

/-- Each expression is one node written, by the step for its constructor. -/
theorem exprSpec_succ (ih : Renders f) : ExprSpec (f + 1) := by
  intro e r O
  cases e with
  | name x => exact spec_expr_name r O x
  | typeName t => exact spec_expr_typeName r O t
  | qualified q x => exact spec_expr_qualified ih r O q x
  | field q x => exact spec_expr_field ih r O q x
  | superField v => exact spec_expr_superField r O v
  | thisRef q => exact spec_expr_thisRef r O q
  | call recv m as => exact spec_expr_call ih r O recv m as
  | new ty ctor as body => exact spec_expr_new ih r O ty ctor as body
  | assign l rhs => exact spec_expr_assign ih r O l rhs
  | binary l op rhs => exact spec_expr_binary ih r O l op rhs
  | negation e => exact spec_expr_negation ih r O e
  | lit s k => exact spec_expr_lit r O s k
  | paren e => exact spec_expr_paren ih r O e
  | castTo t e => exact spec_expr_castTo ih r O t e




end RenderM

end QuickFix.Outline
