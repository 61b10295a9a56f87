import QuickFix.Proofs.RenderStmts

/-!
# Rendering declarations

The steps of `Renders` for the annotations held back, type declarations and bodies, members and
method declarations: when every function of the renderer meets its specification at fuel `f`,
these do at `f + 1`. Annotations written on a member are held back until the member's node is
opened (`flush`), so the fuel a step needs counts their weight as well as the weight of what it
writes.
-/

namespace QuickFix.Outline

open TreeBuilder

/-! ### Weights of lists -/

theorem membersWeight_append (ms ms' : List Member) :
    membersWeight (ms ++ ms') = membersWeight ms + membersWeight ms' := by
  induction ms with
  | nil => simp [membersWeight]
  | cons m ms ih => simp only [List.cons_append, membersWeight, ih]; omega

theorem annotationsWeight_append (as as' : List AnnotationUse) :
    annotationsWeight (as ++ as') = annotationsWeight as + annotationsWeight as' := by
  induction as with
  | nil => simp [annotationsWeight]
  | cons a as ih =>
    cases a
    simp only [List.cons_append, annotationsWeight, ih]
    omega

theorem valuesWeight_append (vs vs' : List (NameRef × Expr)) :
    valuesWeight (vs ++ vs') = valuesWeight vs + valuesWeight vs' := by
  induction vs with
  | nil => simp [valuesWeight]
  | cons v vs ih => simp only [List.cons_append, valuesWeight, ih]; omega

namespace RenderM

/- Lean makes the equation lemmas of a definition when a proof first unfolds it. They are made here,
once, so that the proofs below, elaborated in parallel, do not each wait for them. -/
section
attribute [local simp] member Member.weight valuesWeight membersWeight annotationsWeight optStmtsWeight flush
  TypeDecl.weight
end

variable {f : Nat} {O : List NodeId} {r : Role} {st st' : RenderState}

/-- A step that changes neither the builder nor the text adds nothing. -/
theorem Added.of_builder (hs : Sound O st) (hb : st'.builder = st.builder) (ho : st'.out = st.out) :
    Added O r st st' :=
  ⟨by unfold Sound; rw [hb, ho]; exact hs, by rw [hb]; exact .refl _,
    fun _ _ => ⟨[], by rw [hb, List.append_nil], by simp⟩, ⟨"", by rw [ho, String.append_empty]⟩⟩

/-- A change of the state that keeps its builder, text and held-back annotations. -/
theorem minor_of_eq (hb : st'.builder = st.builder) (hp : st'.pending = st.pending)
    (ho : st'.out = st.out) : Minor st st' :=
  ⟨hb ▸ .refl _, hp, "", by rw [ho, String.append_empty]⟩

/-! ### The annotations held back -/

/-- The annotations `done` that `flush` has written since it took them off `st`: their nodes
added, the end fresh, and held back no more than what their values held back. -/
structure AnnotationsWritten (O : List NodeId) (st : RenderState) (done : List AnnotationUse)
    (st' : RenderState) : Prop where
  added : Added O .annotationUse st st'
  fresh : Fresh st'.builder st'.out
  pending : pendingWeight st' ≤ annotationsWeight done

/-- The element values `done` of the annotation `a` begun at `st`: held back no more than they
held back, the end fresh before the first of them, and `a` still an annotation. -/
structure ValuesWritten (O : List NodeId) (st : RenderState) (a : NodeId)
    (done : List (NameRef × Expr)) (first : Bool) (st' : RenderState) : Prop where
  inside : Inside O .annotationUse st a st'
  pending : pendingWeight st' ≤ pendingWeight st + valuesWeight done
  fresh : first = true → Fresh st'.builder st'.out
  kind : st'.builder.view.kind a = .annotationUse

/-- One element value `nm = v` of the annotation `a`, from a state whose end is fresh and whose
held-back annotations leave the fuel the value needs. -/
theorem spec_valuePair (ih : Renders f) (nm : NameRef) (v : Expr) {a : NodeId}
    {done : List (NameRef × Expr)} (hin : Inside O .annotationUse st a st') (hfr : Fresh st'.builder st'.out)
    (hk : st'.builder.view.kind a = .annotationUse)
    (hp : pendingWeight st' ≤ pendingWeight st + valuesWeight done)
    (hf : 2 * pendingWeight st' + 2 * v.weight + 2 ≤ f) :
    Spec (· = st') (start .memberValuePair .memberValue >>= fun _ => name .name nm >>= fun _ =>
        text " = " >>= fun _ => expr f v .expression >>= fun _ => finish >>= fun _ =>
        pure (ForInStep.yield false))
      fun _ r st'' => ∃ b', r = .yield b' ∧ ValuesWritten O st a (done ++ [(nm, v)]) b' st'' := by
  refine Spec.bind_eq ((spec_start_inside (by decide)).at_
    (hin.ready hfr (listReady_of_not_listed (by decide)))) ?_
  rintro pn st₁ ⟨hpin₁, hpfr₁, -, -, hp₁⟩
  refine Spec.bind_eq ((spec_name .name nm).at_
    (hpin₁.ready hpfr₁ (listReady_of_not_listed (by decide)))) ?_
  rintro _ st₂ ⟨hw₂, hp₂⟩
  refine Spec.bind_eq ((hpin₁.wrote hw₂).text_fresh (by decide)) ?_
  rintro _ st₃ ⟨hpin₃, hpfr₃, hp₃⟩
  refine Spec.bind_eq ((ih.expr v .expression (pn :: a :: O)).at_
    ⟨hpin₃.ready hpfr₃ (listReady_of_not_listed (by decide)), by omega⟩) ?_
  rintro _ st₄ ⟨hw₄, hp₄⟩
  refine Spec.bind_eq (hpin₃.wrote hw₄).finish_last ?_
  rintro _ st₅ ⟨-, hpw, hp₅⟩
  refine Spec.pure_eq ⟨false, rfl, hin.wrote hpw, ?_, fun h => absurd h (by decide),
    by rw [hin.kind_eq hpw.grows, hk]⟩
  rw [valuesWeight_append, valuesWeight, valuesWeight]
  omega

/-- The end of the annotation `a` of type `ty`: closed, given its type, then a line break. One
more annotation is written. -/
theorem AnnotationsWritten.spec_close {done : List AnnotationUse} {a : NodeId} {ty : TypeId}
    {values : List (NameRef × Expr)} {st₁ : RenderState} (hI : AnnotationsWritten O st done st₁)
    (hin : Inside O .annotationUse st₁ a st') (hk : st'.builder.view.kind a = .annotationUse)
    (hp : pendingWeight st' ≤ pendingWeight st₁ + valuesWeight values) :
    Spec (· = st') (finish >>= fun _ => setBinding a (.type ty) >>= fun _ =>
        setTypeBinding a ty >>= fun _ => newline >>= fun _ => pure (ForInStep.yield PUnit.unit))
      fun _ r st'' => ∃ b', r = .yield b' ∧
        AnnotationsWritten O st (done ++ [.mk ty values]) st'' := by
  refine Spec.bind_eq hin.finish_kind ?_
  rintro _ st₂ ⟨-, hw₂, hk₂, -, hp₂⟩
  refine Spec.bind_eq (spec_setBinding a _ fun _ he => by
    rw [he, hk₂, hk]; exact Binding.fitsKind_of_not_declaration rfl _) ?_
  rintro _ st₃ hr₃
  refine Spec.bind_eq (retouching_setTypeBinding _ _).spec ?_
  rintro _ st₄ hr₄
  have hw₄ := hw₂.retouch (hr₃.trans hr₄)
  refine Spec.bind_eq (spec_newline_fresh.at_ hw₄.sound) ?_
  rintro _ st₅ ⟨hm₅, hfr₅⟩
  refine Spec.pure_eq ⟨PUnit.unit, rfl, hI.added.trans (hw₄.added.minor hm₅), hfr₅, ?_⟩
  have := hI.pending
  have := hm₅.pendingWeight_eq
  have := (hr₃.trans hr₄).pendingWeight_eq
  rw [annotationsWeight_append, annotationsWeight, annotationsWeight]
  omega

/-- The annotations held back, each on a line of its own: an `@`, the type's name, and the element
values in parentheses if any. They are taken off the state first, so what is held back after them
is what their values hold back. -/
theorem flushSpec_succ (ih : Renders f) : FlushSpec (f + 1) := by
  intro O
  refine Spec.of_at fun st hpre => ?_
  obtain ⟨h, hb⟩ := hpre
  simp only [flush]
  refine Spec.bind_eq spec_get ?_
  rintro x st₀ ⟨hx, hst₀⟩
  subst x st₀
  refine Spec.bind_eq (spec_modify _) ?_
  rintro _ st₁ hst₁
  subst st₁
  have h₀ : AnnotationsWritten O st [] { st with pending := [] } :=
    ⟨Added.of_builder h.sound rfl rfl, h.fresh, Nat.le_refl _⟩
  refine Spec.bind_eq (Spec.forIn (fun done _ => AnnotationsWritten O st done) h₀ ?_) ?_
  · rintro done ⟨ty, values⟩ rest _ st' hanns hI
    have haw : pendingWeight st =
        annotationsWeight done + (valuesWeight values + 1) + annotationsWeight rest := by
      rw [pendingWeight, hanns, annotationsWeight_append, annotationsWeight]
      omega
    have hp := hI.pending
    refine Spec.bind_eq ((spec_start_writing (by decide)).at_
      ⟨hI.added.sound, h.ne_nil, hI.fresh, listReady_of_not_listed (by decide)⟩) ?_
    rintro a st₂ ⟨hw₂, hka, -, -, -, hp₂⟩
    have hin₂ : Inside O .annotationUse st' a st₂ := ⟨hw₂, by rw [hka]; rfl⟩
    refine Spec.bind_eq (hin₂.text_fresh (by decide)).text_builder ?_
    rintro _ st₃ ⟨⟨hin₃, hfr₃, hp₃⟩, hb₃⟩
    refine Spec.bind_eq (spec_read fun _ _ => rfl) ?_
    rintro tb _ rfl
    refine spec_leaf_named_then (hin₃.ready hfr₃ (listReady_of_not_listed (by decide))) _ ?_
    intro tn st₄ hw₄ hk₄ hp₄
    -- a type name and an annotation declare nothing, so both may take the type as binding
    refine Spec.bind_eq (spec_setBinding tn _ fun _ he => by
      rw [he, hk₄]; exact Binding.fitsKind_of_not_declaration rfl _) ?_
    rintro _ st₅ hr₅
    have hin₅ := (hin₃.wrote hw₄).minor hr₅.minor
    have := hr₅.pendingWeight_eq
    have hk₅ : st₅.builder.view.kind a = .annotationUse := by
      rw [hin₂.kind_eq ((hb₃ ▸ hw₄.grows).trans hr₅.builder.grows), hka]
    split
    · -- the element values in parentheses, separated by commas
      refine Spec.bind_eq (hin₅.text_fresh (by decide)).text_builder ?_
      rintro _ st₆ ⟨⟨hin₆, hfr₆, hp₆⟩, hb₆⟩
      have j₀ : ValuesWritten O st' a [] true st₆ :=
        ⟨hin₆, by rw [valuesWeight]; omega, fun _ => hfr₆, hb₆ ▸ hk₅⟩
      refine Spec.bind_eq (Spec.forIn (ValuesWritten O st' a) j₀ ?_) ?_
      · rintro vdone ⟨nm, v⟩ vrest first st'' hvs hJ
        have hvw : valuesWeight values =
            valuesWeight vdone + (v.weight + 1) + valuesWeight vrest := by
          rw [hvs, valuesWeight_append, valuesWeight]
          omega
        have := hJ.pending
        -- a comma before every pair but the first
        cases first with
        | false =>
          rw [if_pos (by decide : (!false) = true)]
          refine Spec.bind_eq (hJ.inside.text_fresh (by decide)).text_builder ?_
          rintro _ st₇ ⟨⟨hin₇, hfr₇, hp₇⟩, hb₇⟩
          exact spec_valuePair ih nm v hin₇ hfr₇ (hb₇ ▸ hJ.kind) (by omega) (by omega)
        | true =>
          rw [if_neg (by decide)]
          exact spec_valuePair ih nm v hJ.inside (hJ.fresh rfl) hJ.kind hJ.pending (by omega)
      · rintro _ st₇ ⟨hin₇, hp₇, -, hk₇⟩
        refine Spec.bind_eq (hin₇.text_fresh (by decide)).text_builder ?_
        rintro _ st₈ ⟨⟨hin₈, -, hp₈⟩, hb₈⟩
        exact hI.spec_close hin₈ (hb₈ ▸ hk₇) (by omega)
    · exact hI.spec_close hin₅ hk₅ (by omega)
  · rintro _ st₂ ⟨hadd, hfr, hp⟩
    have : pendingWeight st = annotationsWeight st.pending := rfl
    exact Spec.pure_eq ⟨⟨hadd, by omega⟩, hfr⟩

/-- A type declaration: its annotations and modifiers, keyword and name, the superclass and the
interfaces, then the members in braces. -/
theorem typeDeclSpec_succ (ih : Renders f) : TypeDeclSpec (f + 1) := by
  rintro ⟨ty, ms⟩ r O
  refine Spec.of_at fun st hpre => ?_
  obtain ⟨h, hb⟩ := hpre
  have hd : 1 ≤ (TypeDecl.mk ty ms).weight := Nat.le_add_left 1 _
  rw [typeDecl.eq_2]
  refine Spec.bind_eq (spec_read fun _ _ => rfl) ?_
  rintro tb st₀ hst₀
  subst st₀
  extract_lets info body first₀ first₁ interfaces
  refine Spec.bind_eq ((spec_start_writing (by decide)).at_ h) ?_
  rintro n st₁ ⟨hw₁, hk₁, hfr₁, hnl₁, -, hp₁⟩
  have hin₁ : Inside O r st n st₁ := ⟨hw₁, by rw [hk₁]; rfl⟩
  refine Spec.bind_eq ((ih.flush (n :: O)).at_
    ⟨Ready.of_noList hin₁.sound (List.cons_ne_nil _ _) hfr₁ (hnl₁ _), by omega⟩) ?_
  rintro _ st₂ ⟨⟨hadd₂, hp₂⟩, hfr₂⟩
  have hin₂ := hin₁.added hadd₂
  -- a type declaration declares its type
  refine Spec.bind_eq (spec_setBinding n _ fun _ he => by
    rw [he, hin₁.kind_eq hadd₂.grows, hk₁]; exact Binding.fitsKind_of_isTypeBody rfl _) ?_
  rintro _ st₃ hr₃
  refine Spec.bind_eq (spec_setIdentifier _ fun _ he => he ▸ (hin₂.minor hr₃.minor).kind) ?_
  rintro _ st₄ hr₄
  refine Spec.bind_eq (retouching_setModifiers _ _).spec ?_
  rintro _ st₅ hr₅
  refine Spec.bind_eq (spec_modifiersText _) ?_
  rintro _ st₆ hm₆
  have hm := ((hr₃.trans hr₄).trans hr₅).minor.trans hm₆
  have := hm.pendingWeight_eq
  refine Spec.bind_eq ((hin₂.minor hm).text_fresh (by split <;> decide)) ?_
  rintro _ st₇ ⟨hin₇, hfr₇, hp₇⟩
  refine Spec.bind_eq ((spec_boundName .name _).at_
    (hin₇.ready hfr₇ (listReady_of_not_listed (by decide)))) ?_
  rintro _ st₈ ⟨hw₈, hp₈⟩
  have hin₈ := hin₇.wrote hw₈
  -- the members in braces, and the node closed
  have hbody : ∀ st₉ u, Inside O r st n st₉ → pendingWeight st₉ = pendingWeight st₂ →
      Spec (· = st₉) (body u) fun _ b st' => WroteWithin O r (TypeDecl.mk ty ms).weight st b st' := by
    intro st₉ u hin₉ hp₉
    refine Spec.bind_eq (hin₉.text_fresh (by decide)) ?_
    rintro _ st₁₀ ⟨hin₁₀, -, hp₁₀⟩
    refine Spec.bind_eq ((ih.typeBody _ (n :: O)).at_
      ⟨hin₁₀.sound, List.cons_ne_nil _ _, by omega⟩) ?_
    rintro _ st₁₁ ⟨hadd₁₁, hp₁₁⟩
    refine Spec.bind_eq (spec_newline_fresh.at_ hadd₁₁.sound) ?_
    rintro _ st₁₂ ⟨hm₁₂, -⟩
    refine Spec.bind_eq (spec_text_minor _) ?_
    rintro _ st₁₃ hm₁₃
    refine ((hin₁₀.added hadd₁₁).minor (hm₁₂.trans hm₁₃)).finish_last.mono ?_
    rintro _ _ _ rfl ⟨rfl, hw, hp⟩
    exact ⟨hw, by rw [hp, hm₁₃.pendingWeight_eq, hm₁₂.pendingWeight_eq]; omega⟩
  -- the interfaces, separated by commas
  have hinterfaces : ∀ st₉ u, Inside O r st n st₉ → pendingWeight st₉ = pendingWeight st₂ →
      Spec (· = st₉) (interfaces u) fun _ b st' =>
        WroteWithin O r (TypeDecl.mk ty ms).weight st b st' := by
    intro st₉ u hin₉ hp₉
    simp only [interfaces]
    split
    · refine Spec.bind_eq (hin₉.text_fresh (by split <;> decide)) ?_
      rintro _ st₁₀ ⟨hin₁₀, hfr₁₀, hp₁₀⟩
      let J : List TypeId → Bool → RenderState → Prop := fun _ first st' =>
        Inside O r st n st' ∧ pendingWeight st' = pendingWeight st₂ ∧
          (first = true → Fresh st'.builder st'.out)
      refine Spec.bind_eq (Spec.forIn J ⟨hin₁₀, by omega, fun _ => hfr₁₀⟩ ?_) ?_
      · rintro done i rest first st' _ ⟨hin, hp, hfirst⟩
        -- one supertype, from a state whose end is fresh
        have hsuper : ∀ st₁₁, Inside O r st n st₁₁ → Fresh st₁₁.builder st₁₁.out →
            pendingWeight st₁₁ = pendingWeight st₂ →
            Spec (· = st₁₁) (typeRef .type i >>= fun _ => pure (ForInStep.yield first₁))
              fun _ r' st' => ∃ b', r' = .yield b' ∧ J (done ++ [i]) b' st' := by
          intro st₁₁ hin₁₁ hfr₁₁ hp₁₁
          refine Spec.bind_eq ((spec_typeRef .type i).at_
            (hin₁₁.ready hfr₁₁ (listReady_of_not_listed (by decide)))) ?_
          rintro _ st₁₂ ⟨hw₁₂, hp₁₂⟩
          exact Spec.pure_eq ⟨first₁, rfl, hin₁₁.wrote hw₁₂, by omega, fun h => absurd h (by decide)⟩
        cases first with
        | false =>
          rw [if_pos (by decide : (!false) = true)]
          refine Spec.bind_eq (hin.text_fresh (by decide)) ?_
          rintro _ st₁₁ ⟨hin₁₁, hfr₁₁, hp₁₁⟩
          exact hsuper st₁₁ hin₁₁ hfr₁₁ (hp₁₁.trans hp)
        | true =>
          rw [if_neg (by decide)]
          exact hsuper st' hin (hfirst rfl) hp
      · rintro _ st₁₁ ⟨hin₁₁, hp₁₁, -⟩
        exact hbody st₁₁ () hin₁₁ hp₁₁
    · exact hbody st₉ () hin₉ hp₉
  -- the superclass, for a class that names one other than the root class
  split
  · split
    · split
      · refine Spec.bind_eq (hin₈.text_fresh (by decide)) ?_
        rintro _ st₉ ⟨hin₉, hfr₉, hp₉⟩
        refine Spec.bind_eq ((spec_typeRef .type _).at_
          (hin₉.ready hfr₉ (listReady_of_not_listed (by decide)))) ?_
        rintro _ st₁₀ ⟨hw₁₀, hp₁₀⟩
        exact hinterfaces st₁₀ () (hin₉.wrote hw₁₀) (by omega)
      · exact hinterfaces st₈ () hin₈ (by omega)
    · exact hinterfaces st₈ () hin₈ (by omega)
  · exact hinterfaces st₈ () hin₈ (by omega)

/-- A type body, one level deeper: the enum constants on a line, separated by commas and ended by
a semicolon, then every other member on a line of its own. -/
theorem typeBodySpec_succ (ih : Renders f) : TypeBodySpec (f + 1) := by
  rintro ⟨ty, ms⟩ O
  refine Spec.of_at fun st hpre => ?_
  obtain ⟨hs, hO, hb⟩ := hpre
  simp only [TypeDecl.weight] at hb ⊢
  rw [typeBody.eq_2]
  refine Spec.bind_eq (spec_modify _) ?_
  rintro _ st₁ rfl
  refine Spec.bind_eq (spec_indentBy _) ?_
  rintro _ st₂ hm₂
  have hm₁ : Minor st { st with types := ty :: st.types, declared := st.declared.push ty } :=
    minor_of_eq rfl rfl rfl
  have hm := hm₁.trans hm₂
  extract_lets constants jp
  -- the members other than constants, each after a line break
  have hjp : ∀ st₃, Added O .member st st₃ → pendingWeight st₃ = pendingWeight st →
      Spec (· = st₃) (jp ()) fun _ _ st' => AddedWithin O .member (membersWeight ms + 1) st st' := by
    intro st₃ hadd₃ hp₃
    -- after the members `done`: added, and held back within their weight
    let I : List Member → PUnit → RenderState → Prop := fun done _ st' =>
      Added O .member st st' ∧ pendingWeight st' ≤ pendingWeight st + membersWeight done
    refine Spec.bind_eq (Spec.forIn I ⟨hadd₃, by rw [membersWeight]; omega⟩ ?_) ?_
    · rintro done m rest _ st' hms ⟨hadd, hp⟩
      have hw : membersWeight ms = membersWeight done + m.weight + membersWeight rest := by
        rw [hms, membersWeight_append, membersWeight]
        omega
      have hw' : membersWeight (done ++ [m]) = membersWeight done + m.weight := by
        rw [membersWeight_append, membersWeight, membersWeight]
        omega
      split
      · exact Spec.pure_eq ⟨PUnit.unit, rfl, hadd, by rw [hw']; omega⟩
      · refine Spec.bind_eq (spec_newline_fresh.at_ hadd.sound) ?_
        rintro _ st₄ ⟨hm₄, hfr₄⟩
        have := hm₄.pendingWeight_eq
        refine Spec.bind_eq ((ih.member m O).at_
          ⟨⟨hm₄.sound hadd.sound, hO, hfr₄, listReady_of_not_listed (by decide)⟩, by omega⟩) ?_
        rintro _ st₅ ⟨hadd₅, hp₅⟩
        exact Spec.pure_eq ⟨PUnit.unit, rfl, (hadd.minor hm₄).trans hadd₅, by rw [hw']; omega⟩
    · rintro _ st₄ ⟨hadd₄, hp₄⟩
      refine Spec.bind_eq (spec_indentBy _) ?_
      rintro _ st₅ hm₅
      refine (spec_modify _).mono ?_
      intro st₆ _ st₇ h₆ h₇
      subst st₆ st₇
      exact ⟨hadd₄.minor (hm₅.trans (minor_of_eq rfl rfl rfl)),
        hm₅.pendingWeight_eq.trans_le (by omega)⟩
  split
  · -- the constants, after a line break
    refine Spec.bind_eq (spec_newline_fresh.at_ (hm.sound hs)) ?_
    rintro _ st₃ ⟨hm₃, hfr₃⟩
    let J : List VarId → Bool → RenderState → Prop := fun _ first st' =>
      Added O .member st st' ∧ pendingWeight st' = pendingWeight st ∧
        (first = true → Fresh st'.builder st'.out)
    have j₀ : J [] true st₃ :=
      ⟨(Added.refl hs).minor (hm.trans hm₃), (hm.trans hm₃).pendingWeight_eq, fun _ => hfr₃⟩
    refine Spec.bind_eq (Spec.forIn J j₀ ?_) ?_
    · rintro done c rest first st' _ ⟨hadd, hp, hfirst⟩
      dsimp only
      -- one constant, from a state whose end is fresh
      have hconst : ∀ st₄, Added O .member st st₄ → Fresh st₄.builder st₄.out →
          pendingWeight st₄ = pendingWeight st →
          Spec (· = st₄) (start .enumConstantDeclaration .member >>= fun node =>
              setBinding node (.var c) >>= fun _ => boundName .name (.var c) >>= fun _ =>
              finish >>= fun _ => pure (ForInStep.yield false))
            fun _ r' st₉ => ∃ b', r' = .yield b' ∧ J (done ++ [c]) b' st₉ := by
        intro st₄ hadd₄ hfr₄ hp₄
        refine Spec.bind_eq ((spec_start_inside (by decide)).at_
          ⟨hadd₄.sound, hO, hfr₄, listReady_of_not_listed (by decide)⟩) ?_
        rintro n st₅ ⟨hin₅, hfr₅, -, -, hp₅⟩
        refine Spec.bind_eq (retouching_setBinding _ _ (by simp)).spec ?_
        rintro _ st₆ hr₆
        refine Spec.bind_eq ((spec_boundName .name _).at_
          ((hin₅.minor hr₆.minor).ready (hr₆.minor.fresh hfr₅)
            (listReady_of_not_listed (by decide)))) ?_
        rintro _ st₇ ⟨hw₇, hp₇⟩
        refine Spec.bind_eq ((hin₅.minor hr₆.minor).wrote hw₇).finish_last ?_
        rintro _ st₈ ⟨-, hw, hp⟩
        have := hr₆.pendingWeight_eq
        exact Spec.pure_eq ⟨false, rfl, hadd₄.trans hw.added, by omega,
          fun h => absurd h (by decide)⟩
      cases first with
      | false =>
        rw [if_pos (by decide : (!false) = true)]
        refine Spec.bind_eq ((spec_text_fresh (by decide)).at_ hadd.sound) ?_
        rintro _ st₄ ⟨hm₄, hfr₄⟩
        exact hconst st₄ (hadd.minor hm₄) hfr₄ (hm₄.pendingWeight_eq.trans hp)
      | true =>
        rw [if_neg (by decide)]
        exact hconst st' hadd (hfirst rfl) hp
    · rintro _ st₄ ⟨hadd₄, hp₄, -⟩
      refine Spec.bind_eq (spec_text_minor _) ?_
      rintro _ st₅ hm₅
      exact hjp st₅ (hadd₄.minor hm₅) (hm₅.pendingWeight_eq.trans hp₄)
  · exact hjp st₂ ((Added.refl hs).minor hm) hm.pendingWeight_eq

/-! ### Members -/

section member

variable (ih : Renders f) (O : List NodeId)
include ih

/-- A field: its annotations, modifiers and type, then the fragment and a semicolon. -/
theorem spec_member_field (v : VarId) (init : Option Expr) :
    Spec (Fits (f + 1) O .member (2 * (Member.field v init).weight + 3))
      (member (f + 1) (.field v init)) fun st _ st' =>
        AddedWithin O .member (Member.field v init).weight st st' := by
  refine Spec.of_at fun st hpre => ?_
  obtain ⟨h, hb⟩ := hpre
  simp only [Member.weight] at hb ⊢
  simp only [member]
  refine Spec.bind_eq (spec_read fun _ _ => rfl) ?_
  rintro tb st₀ hst₀
  subst st₀
  refine Spec.bind_eq ((spec_start_inside (by decide)).at_ h) ?_
  rintro n st₁ ⟨hin₁, hfr₁, hnl₁, -, hp₁⟩
  refine Spec.bind_eq ((ih.flush (n :: O)).at_
    ⟨Ready.of_noList hin₁.sound (List.cons_ne_nil _ _) hfr₁ (hnl₁ _), by omega⟩) ?_
  rintro _ st₂ ⟨⟨hadd₂, hp₂⟩, hfr₂⟩
  refine Spec.bind_eq (retouching_setModifiers _ _).spec ?_
  rintro _ st₃ hr₃
  refine Spec.bind_eq (spec_modifiersText _) ?_
  rintro _ st₄ hm₄
  have hm := hr₃.minor.trans hm₄
  have hin₄ := (hin₁.added hadd₂).minor hm
  have := hm.pendingWeight_eq
  -- the fragment and the semicolon, after the type if the field has one
  have hrest : ∀ st₅, Inside O .member st n st₅ → Fresh st₅.builder st₅.out →
      pendingWeight st₅ = pendingWeight st₂ →
      Spec (· = st₅) (fragment f v init >>= fun _ => text ";" >>= fun _ => finish >>= fun _ =>
          pure PUnit.unit)
        fun _ _ st' => AddedWithin O .member (optWeight init + 1) st st' := by
    intro st₅ hin₅ hfr₅ hp₅
    refine Spec.bind_eq ((ih.fragment v init (n :: O)).at_
      ⟨hin₅.ready hfr₅ (listReady_of_not_listed (by decide)), by omega⟩) ?_
    rintro _ st₆ ⟨hadd₆, hp₆⟩
    refine Spec.bind_eq ((hin₅.added hadd₆).text_fresh (by decide)) ?_
    rintro _ st₇ ⟨hin₇, -, hp₇⟩
    refine Spec.bind_eq hin₇.finish_last ?_
    rintro _ st₈ ⟨-, hw, hp⟩
    exact Spec.pure_eq ⟨hw.added, by omega⟩
  split
  · refine Spec.bind_eq ((spec_typeRef .type _).at_
      (hin₄.ready (hm.fresh hfr₂) (listReady_of_not_listed (by decide)))) ?_
    rintro _ st₅ ⟨hw₅, hp₅⟩
    refine Spec.bind_eq ((hin₄.wrote hw₅).text_fresh (by decide)) ?_
    rintro _ st₆ ⟨hin₆, hfr₆, hp₆⟩
    exact hrest st₆ hin₆ hfr₆ (by omega)
  · exact hrest st₄ hin₄ (hm.fresh hfr₂) this

theorem spec_member_method (m : MethodId) (body : Option (List Stmt)) :
    Spec (Fits (f + 1) O .member (2 * (Member.method m body).weight + 3))
      (member (f + 1) (.method m body)) fun st _ st' =>
        AddedWithin O .member (Member.method m body).weight st st' := by
  refine Spec.of_at fun st hpre => ?_
  obtain ⟨h, hb⟩ := hpre
  simp only [Member.weight] at hb ⊢
  simp only [member]
  refine ((ih.methodDecl m body O).at_ ⟨h, by omega⟩).mono ?_
  rintro _ _ _ rfl ⟨hadd, hp⟩
  exact ⟨hadd, by omega⟩

/-- An initializer: `static` if it is static, then its block. -/
theorem spec_member_initializer (isStatic : Bool) (body : List Stmt) :
    Spec (Fits (f + 1) O .member (2 * (Member.initializer isStatic body).weight + 3))
      (member (f + 1) (.initializer isStatic body)) fun st _ st' =>
        AddedWithin O .member (Member.initializer isStatic body).weight st st' := by
  refine Spec.of_at fun st hpre => ?_
  obtain ⟨h, hb⟩ := hpre
  simp only [Member.weight] at hb ⊢
  simp only [member]
  refine Spec.bind_eq ((spec_start_inside (by decide)).at_ h) ?_
  rintro n st₁ ⟨hin₁, hfr₁, -, -, hp₁⟩
  have hrest : ∀ st₂, Inside O .member st n st₂ → Fresh st₂.builder st₂.out →
      pendingWeight st₂ = pendingWeight st →
      Spec (· = st₂) (block f body .body >>= fun _ => finish >>= fun _ => pure PUnit.unit)
        fun _ _ st' => AddedWithin O .member (stmtsWeight body + 1) st st' := by
    intro st₂ hin₂ hfr₂ hp₂
    refine Spec.bind_eq ((ih.block body .body (n :: O)).at_
      ⟨hin₂.ready hfr₂ (listReady_of_not_listed (by decide)), by omega⟩) ?_
    rintro _ st₃ ⟨hw₃, hp₃⟩
    refine Spec.bind_eq (hin₂.wrote hw₃).finish_last ?_
    rintro _ st₄ ⟨-, hw, hp⟩
    exact Spec.pure_eq ⟨hw.added, by omega⟩
  split
  · refine Spec.bind_eq (retouching_setModifiers _ _).spec ?_
    rintro _ st₂ hr₂
    refine Spec.bind_eq ((hin₁.minor hr₂.minor).text_fresh (by decide)) ?_
    rintro _ st₃ ⟨hin₃, hfr₃, hp₃⟩
    exact hrest st₃ hin₃ hfr₃ (by rw [hp₃, hr₂.pendingWeight_eq, hp₁])
  · exact hrest st₁ hin₁ hfr₁ hp₁

theorem spec_member_nested (d : TypeDecl) :
    Spec (Fits (f + 1) O .member (2 * (Member.nested d).weight + 3))
      (member (f + 1) (.nested d)) fun st _ st' =>
        AddedWithin O .member (Member.nested d).weight st st' := by
  refine Spec.of_at fun st hpre => ?_
  obtain ⟨h, hb⟩ := hpre
  simp only [Member.weight] at hb ⊢
  simp only [member]
  refine Spec.bind_eq ((ih.typeDecl d .member O).at_ ⟨h, by omega⟩) ?_
  rintro _ st₁ ⟨hw₁, hp₁⟩
  exact Spec.pure_eq ⟨hw₁.added, by omega⟩

omit ih in
theorem spec_member_constant (v : VarId) :
    Spec (Fits (f + 1) O .member (2 * (Member.constant v).weight + 3))
      (member (f + 1) (.constant v)) fun st _ st' =>
        AddedWithin O .member (Member.constant v).weight st st' := by
  refine Spec.of_at fun st hpre => ?_
  simp only [member]
  exact Spec.pure_eq ⟨Added.refl hpre.1.sound, Nat.le_add_right _ _⟩

/-- Annotations on a member are held back for the member's node, so they count in its fuel. -/
theorem spec_member_annotated (anns : List AnnotationUse) (inner : Member) :
    Spec (Fits (f + 1) O .member (2 * (Member.annotated anns inner).weight + 3))
      (member (f + 1) (.annotated anns inner)) fun st _ st' =>
        AddedWithin O .member (Member.annotated anns inner).weight st st' := by
  refine Spec.of_at fun st hpre => ?_
  obtain ⟨h, hb⟩ := hpre
  simp only [Member.weight] at hb ⊢
  simp only [member]
  refine Spec.bind_eq (spec_modify _) ?_
  rintro _ st₁ rfl
  have hw : pendingWeight { st with pending := st.pending ++ anns } =
      pendingWeight st + annotationsWeight anns :=
    annotationsWeight_append _ _
  have hfits : Fits f O .member (2 * inner.weight + 3) { st with pending := st.pending ++ anns } :=
    ⟨⟨h.sound, h.ne_nil, h.fresh, h.listReady⟩, by omega⟩
  refine ((ih.member inner O).at_ hfits).mono ?_
  rintro _ _ _ rfl ⟨hadd, hp⟩
  have hadd₁ : Added O .member st { st with pending := st.pending ++ anns } :=
    Added.of_builder h.sound rfl rfl
  exact ⟨hadd₁.trans hadd, by omega⟩

omit ih in
/-- An annotation type element: its return type, name and empty parentheses. -/
theorem spec_member_attribute (m : MethodId) :
    Spec (Fits (f + 1) O .member (2 * (Member.attribute m).weight + 3))
      (member (f + 1) (.attribute m)) fun st _ st' =>
        AddedWithin O .member (Member.attribute m).weight st st' := by
  refine Spec.of_at fun st hpre => ?_
  obtain ⟨h, -⟩ := hpre
  simp only [Member.weight]
  simp only [member]
  refine Spec.bind_eq (spec_read fun _ _ => rfl) ?_
  rintro tb st₀ hst₀
  subst st₀
  refine Spec.bind_eq ((spec_start_inside (by decide)).at_ h) ?_
  rintro n st₁ ⟨hin₁, hfr₁, -, -, hp₁⟩
  refine Spec.bind_eq (retouching_setBinding _ _ (by simp)).spec ?_
  rintro _ st₂ hr₂
  refine Spec.bind_eq (spec_setIdentifier _ fun _ he => he ▸ (hin₁.minor hr₂.minor).kind) ?_
  rintro _ st₃ hr₃
  have hm₃ := hr₂.minor.trans hr₃.minor
  have hin₃ := hin₁.minor hm₃
  refine Spec.bind_eq ((spec_typeRef .returnType _).at_
    (hin₃.ready (hm₃.fresh hfr₁) (listReady_of_not_listed (by decide)))) ?_
  rintro _ st₄ ⟨hw₄, hp₄⟩
  refine Spec.bind_eq ((hin₃.wrote hw₄).text_fresh (by decide)) ?_
  rintro _ st₅ ⟨hin₅, hfr₅, hp₅⟩
  refine Spec.bind_eq ((spec_boundName .name _).at_
    (hin₅.ready hfr₅ (listReady_of_not_listed (by decide)))) ?_
  rintro _ st₆ ⟨hw₆, hp₆⟩
  refine Spec.bind_eq ((hin₅.wrote hw₆).text_fresh (by decide)) ?_
  rintro _ st₇ ⟨hin₇, -, hp₇⟩
  refine Spec.bind_eq hin₇.finish_last ?_
  rintro _ st₈ ⟨-, hw, hp⟩
  have := hm₃.pendingWeight_eq
  exact Spec.pure_eq ⟨hw.added, by omega⟩

end member

/-! ### Method declarations -/

/-- A parameter is one node written: its type, the dots of a variable arity, and its name. -/
theorem spec_parameter (p : VarId) (dots : Bool) :
    Spec (Ready O .parameter) (parameter p dots) fun st n st' =>
      Wrote O .parameter st n st' ∧ pendingWeight st' = pendingWeight st := by
  refine Spec.of_at fun st h => ?_
  unfold parameter
  refine Spec.bind_eq (spec_read fun _ _ => rfl) ?_
  rintro tb st₀ hst₀
  subst st₀
  extract_lets pv named typed
  refine Spec.bind_eq ((spec_start_inside (by decide)).at_ h) ?_
  rintro pn st₁ ⟨hin₁, hfr₁, -, -, hp₁⟩
  refine Spec.bind_eq (retouching_setBinding _ _ (by simp)).spec ?_
  rintro _ st₂ hr₂
  refine Spec.bind_eq (spec_setIdentifier _ fun _ he => he ▸ (hin₁.minor hr₂.minor).kind) ?_
  rintro _ st₃ hr₃
  have hm₃ := hr₂.minor.trans hr₃.minor
  have hin₃ := hin₁.minor hm₃
  have := hm₃.pendingWeight_eq
  -- the name after the type, and the node closed
  have hnamed : ∀ st₄ u, Inside O .parameter st pn st₄ → pendingWeight st₄ = pendingWeight st →
      Spec (· = st₄) (named u) fun _ n st' =>
        Wrote O .parameter st n st' ∧ pendingWeight st' = pendingWeight st := by
    intro st₄ u hin₄ hp₄
    refine Spec.bind_eq (hin₄.text_fresh (by decide)) ?_
    rintro _ st₅ ⟨hin₅, hfr₅, hp₅⟩
    refine Spec.bind_eq ((spec_boundName .name _).at_
      (hin₅.ready hfr₅ (listReady_of_not_listed (by decide)))) ?_
    rintro _ st₆ ⟨hw₆, hp₆⟩
    refine ((hin₅.wrote hw₆).finish_last.mono ?_)
    rintro _ _ _ rfl ⟨rfl, hw, hp⟩
    exact ⟨hw, by omega⟩
  -- the dots of a variable arity
  have htyped : ∀ st₄ u, Inside O .parameter st pn st₄ → pendingWeight st₄ = pendingWeight st →
      Spec (· = st₄) (typed u) fun _ n st' =>
        Wrote O .parameter st n st' ∧ pendingWeight st' = pendingWeight st := by
    intro st₄ u hin₄ hp₄
    simp only [typed]
    split
    · refine Spec.bind_eq (spec_text_minor _) ?_
      rintro u' st₅ hm₅
      exact hnamed st₅ u' (hin₄.minor hm₅) (hm₅.pendingWeight_eq.trans hp₄)
    · exact hnamed st₄ () hin₄ hp₄
  split
  · refine Spec.bind_eq ((spec_typeRef .type _).at_
      (hin₃.ready (hm₃.fresh hfr₁) (listReady_of_not_listed (by decide)))) ?_
    rintro _ st₄ ⟨hw₄, hp₄⟩
    exact htyped _ () (hin₃.wrote hw₄) (by omega)
  · exact htyped _ () hin₃ (by omega)

/-- The parameters of the method node `n` begun at `st` that are written after the `(` that
follows the state `st₀`, `i` of them: held back what `w` says, and either none of them yet with
the end fresh, or the last one written so that a comma continues their list. -/
structure ParamsWritten (O : List NodeId) (st : RenderState) (n : NodeId) (st₀ : RenderState)
    (w i : Nat) (st' : RenderState) : Prop where
  writing : Writing O .member st n st'
  pending : pendingWeight st' = w
  added : Added (n :: O) .parameter st₀ st'
  out : ∃ mid, st'.out = st₀.out ++ "(" ++ mid
  list : ListFrom (n :: O) .parameter (st₀.out ++ "(") st'
  zero : i = 0 → NoList (n :: O) .parameter st' ∧ Fresh st'.builder st'.out
  succ : i ≠ 0 → ListReady .parameter st'.builder (st'.out ++ ", ") ∧
    ¬NoList (n :: O) .parameter st'

namespace ParamsWritten

variable {n : NodeId} {st₀ st₁ st₂ : RenderState} {w i : Nat}

/-- Right after the `(`, no parameter is written. -/
theorem start (hin : Writing O .member st n st₀) (hnl : NoList (n :: O) .parameter st₀)
    (hw : pendingWeight st₀ = w) :
    ParamsWritten O st n st₀ w 0 { st₀ with out := st₀.out ++ "(" } :=
  have hm := minor_text st₀ "("
  ⟨hin.minor hm, hm.pendingWeight_eq.trans hw, (Added.refl hin.sound).minor hm, ⟨"", by simp⟩,
    ListFrom.of_noList (hm.noList hnl),
    fun _ => ⟨hm.noList hnl, fresh_text hin.sound (by decide)⟩, fun h => absurd rfl h⟩

/-- One more parameter, written from a state that a comma leads to once the list has begun. -/
theorem wrote {pn : NodeId} (h : ParamsWritten O st n st₀ w i st') (hm : Minor st' st₁)
    (hsep : NoList (n :: O) .parameter st' → st₁.out = st'.out)
    (hr : Ready (n :: O) .parameter st₁) (hw : Wrote (n :: O) .parameter st₁ pn st₂)
    (hp : pendingWeight st₂ = pendingWeight st₁) : ParamsWritten O st n st₀ w (i + 1) st₂ :=
  ⟨(h.writing.minor hm).wrote hw, hp.trans (hm.pendingWeight_eq.trans h.pending),
    (h.added.minor hm).trans hw.added, out_trans h.out (out_trans hm.out hw.out),
    h.list.wrote h.writing.sound hm hsep hw, fun h => absurd h (Nat.succ_ne_zero _),
    fun _ => ⟨hw.listReady_sep, hw.not_noList hr.sound (List.cons_ne_nil _ _)⟩⟩

end ParamsWritten

/-- A method or constructor: its annotations and modifiers, the return type unless it is a
constructor, the name, the parameters in parentheses separated by commas, and the body or a
semicolon. -/
theorem methodDeclSpec_succ (ih : Renders f) : MethodDeclSpec (f + 1) := by
  intro m body O
  refine Spec.of_at fun st hpre => ?_
  obtain ⟨h, hb⟩ := hpre
  rw [methodDecl.eq_2]
  refine Spec.bind_eq (spec_read fun _ _ => rfl) ?_
  rintro tb st₀ hst₀
  subst st₀
  extract_lets info i₀ close params
  refine Spec.bind_eq ((spec_start_writing (by decide)).at_ h) ?_
  rintro n st₁ ⟨hin₁, hk₁, hfr₁, hnl₁, -, hp₁⟩
  refine Spec.bind_eq ((ih.flush (n :: O)).at_
    ⟨Ready.of_noList hin₁.sound (List.cons_ne_nil _ _) hfr₁ (hnl₁ _), by omega⟩) ?_
  rintro _ st₂ ⟨⟨hadd₂, hp₂⟩, hfr₂⟩
  have hin₂ := hin₁.added hadd₂
  have hnl₂ := hadd₂.noList hin₁.sound (by decide) (hnl₁ .parameter)
  refine Spec.bind_eq (retouching_setBinding _ _ (by simp)).spec ?_
  rintro _ st₃ hr₃
  refine Spec.bind_eq (spec_setIdentifier _ fun _ he => he ▸ (hin₂.minor hr₃.minor).kind) ?_
  rintro _ st₄ hr₄
  refine Spec.bind_eq (retouching_setModifiers _ _).spec ?_
  rintro _ st₅ hr₅
  refine Spec.bind_eq (spec_modifiersText _) ?_
  rintro _ st₆ hm₆
  have hm := ((hr₃.trans hr₄).trans hr₅).minor.trans hm₆
  have hin₆ := hin₂.minor hm
  have hp₆ := hm.pendingWeight_eq
  have hk₆ : st₆.builder.view.kind n = .methodDeclaration := by
    rw [hin₁.kind_eq (hadd₂.grows.trans hm.builder.grows), hk₁]
  -- the end: the node closed, where it has its frame
  have hclose : ∀ st₇ u, Writing O .member st n st₇ →
      (st₇.builder.modify n (Node.closedAt (Text.byteSize st₇.out.toList))).view.Framed
        st₇.out.toList n →
      pendingWeight st₇ ≤ pendingWeight st + optStmtsWeight body →
      Spec (· = st₇) (close u) fun _ _ st' =>
        AddedWithin O .member (optStmtsWeight body) st st' := by
    intro st₇ u hin₇ hframe hp₇
    refine Spec.bind_eq (hin₇.finish hframe) ?_
    rintro _ st₈ ⟨-, hw, -, -, hp⟩
    exact Spec.pure_eq ⟨hw.added, by omega⟩
  -- the name, the parameters and the body, from a state where no parameter is written yet
  have hparams : ∀ st₇ u, Writing O .member st n st₇ →
      st₇.builder.view.kind n = .methodDeclaration → Fresh st₇.builder st₇.out →
      NoList (n :: O) .parameter st₇ → pendingWeight st₇ = pendingWeight st₂ →
      Spec (· = st₇) (params u) fun _ _ st' =>
        AddedWithin O .member (optStmtsWeight body) st st' := by
    intro st₇ u hin₇ hk₇ hfr₇ hnl₇ hp₇
    refine Spec.bind_eq ((spec_boundName .name _).at_
      (hin₇.ready hfr₇ (listReady_of_not_listed (by decide)))) ?_
    rintro _ st₈ ⟨hw₈, hp₈⟩
    have hin₈ := hin₇.wrote hw₈
    have hnl₈ : NoList (n :: O) .parameter st₈ := hw₈.added.noList hin₇.sound (by decide) hnl₇
    refine Spec.bind_eq (spec_text _) ?_
    rintro _ _ rfl
    refine Spec.bind_eq (spec_read fun _ _ => rfl) ?_
    rintro ctx st₁₀ hst₁₀
    subst st₁₀
    extract_lets ps
    refine Spec.bind_eq (Spec.forIn (fun _ => ParamsWritten O st n st₈ (pendingWeight st₂))
      (ParamsWritten.start hin₈ hnl₈ (by omega)) ?_) ?_
    · rintro done p rest i st' _ hJ
      extract_lets i' next param
      -- one parameter, from a state ready for it, after a separator only once the list has begun
      have hparam : ∀ st₁₁ u, Minor st' st₁₁ →
          (NoList (n :: O) .parameter st' → st₁₁.out = st'.out) → Ready (n :: O) .parameter st₁₁ →
          Spec (· = st₁₁) (param u) fun _ r st' =>
            ∃ b', r = .yield b' ∧ ParamsWritten O st n st₈ (pendingWeight st₂) b' st' := by
        intro st₁₁ u hm₁₁ hsep hr₁₁
        refine Spec.bind_eq ((spec_parameter _ _).at_ hr₁₁) ?_
        rintro _ st₁₂ ⟨hw₁₂, hp₁₂⟩
        exact Spec.pure_eq ⟨next, rfl, hJ.wrote hm₁₁ hsep hr₁₁ hw₁₂ hp₁₂⟩
      split
      · obtain ⟨hready, hbegun⟩ := hJ.succ (Nat.pos_iff_ne_zero.mp ‹_›)
        refine Spec.bind_eq (spec_text _) ?_
        rintro u st₁₁ rfl
        exact hparam _ u (minor_text st' _) (fun h => absurd h hbegun)
          ⟨(minor_text st' _).sound hJ.writing.sound, List.cons_ne_nil _ _,
            fresh_text hJ.writing.sound (by decide), hready⟩
      · obtain ⟨hnl, hfr⟩ := hJ.zero (Nat.eq_zero_of_not_pos ‹_›)
        exact hparam _ () (Minor.refl st') (fun _ => rfl)
          (Ready.of_noList hJ.writing.sound (List.cons_ne_nil _ _) hfr hnl)
    · rintro _ st₁₀ ⟨hin₁₀, hp₁₀, hadd₁₀, ⟨mid, hmid⟩, hlist, -, -⟩
      refine Spec.bind_eq (spec_text _) ?_
      rintro _ _ rfl
      have hm₁₁ := minor_text st₁₀ ")"
      have hin₁₁ := hin₁₀.minor hm₁₁
      have hL := hadd₁₀.minor hm₁₁
      have hpar := InParens.of_listFrom hmid hlist hm₁₁ rfl
      have := hm₁₁.pendingWeight_eq
      -- the parameters in parentheses right after the name, then the body or nothing
      have hframe : ∀ stF, Writing O .member st n stF →
          Added (n :: O) .body { st₁₀ with out := st₁₀.out ++ ")" } stF →
          (stF.builder.modify n (Node.closedAt (Text.byteSize stF.out.toList))).view.Framed
            stF.out.toList n := fun stF hinF hpost =>
        hinF.framed_of_inParens
          (by rw [hin₇.kind_eq ((hw₈.grows.trans hL.grows).trans hpost.grows), hk₇]; rfl)
          (by decide) hin₈ hw₈ (.inl rfl) hnl₈ hL hpar hpost (by decide)
      cases body with
      | some ss =>
        simp only [optStmtsWeight] at hb hclose ⊢
        refine Spec.bind_eq ((spec_text_fresh (by decide)).at_ hin₁₁.sound) ?_
        rintro _ st₁₂ ⟨hm₁₂, hfr₁₂⟩
        have hin₁₂ := hin₁₁.minor hm₁₂
        have := hm₁₂.pendingWeight_eq
        refine Spec.bind_eq ((ih.block ss .body (n :: O)).at_
          ⟨hin₁₂.ready hfr₁₂ (listReady_of_not_listed (by decide)), by omega⟩) ?_
        rintro _ st₁₃ ⟨hw₁₃, hp₁₃⟩
        exact hclose st₁₃ () (hin₁₂.wrote hw₁₃) (hframe _ (hin₁₂.wrote hw₁₃)
          (((Added.refl hin₁₁.sound).minor hm₁₂).trans hw₁₃.added)) (by omega)
      | none =>
        refine Spec.bind_eq (spec_text_minor _) ?_
        rintro u st₁₂ hm₁₂
        have := hm₁₂.pendingWeight_eq
        exact hclose st₁₂ u (hin₁₁.minor hm₁₂)
          (hframe _ (hin₁₁.minor hm₁₂) ((Added.refl hin₁₁.sound).minor hm₁₂))
          (by simp only [optStmtsWeight]; omega)
  split
  · refine Spec.bind_eq ((spec_typeRef .returnType _).at_
      (hin₆.ready (hm.fresh hfr₂) (listReady_of_not_listed (by decide)))) ?_
    rintro _ st₇ ⟨hw₇, hp₇⟩
    refine Spec.bind_eq ((spec_text_fresh (by decide)).at_ hw₇.sound) ?_
    rintro u st₈ ⟨hm₈, hfr₈⟩
    exact hparams st₈ u ((hin₆.wrote hw₇).minor hm₈)
      (by rw [hin₆.kind_eq (hw₇.grows.trans hm₈.builder.grows), hk₆]) hfr₈
      (hm₈.noList (hw₇.added.noList hin₆.sound (by decide) (hm.noList hnl₂)))
      (by rw [hm₈.pendingWeight_eq, hp₇, hp₆])
  · exact hparams st₆ () hin₆ hk₆ (hm.fresh hfr₂) (hm.noList hnl₂) hp₆

/-- Each member adds its nodes, by the step for its constructor. -/
theorem memberSpec_succ (ih : Renders f) : MemberSpec (f + 1) := by
  intro m O
  cases m with
  | field v init => exact spec_member_field ih O v init
  | method m body => exact spec_member_method ih O m body
  | initializer isStatic body => exact spec_member_initializer ih O isStatic body
  | nested d => exact spec_member_nested ih O d
  | constant v => exact spec_member_constant O v
  | annotated anns inner => exact spec_member_annotated ih O anns inner
  | «attribute» m => exact spec_member_attribute O m

/-! ### Every fuel -/

/-- With no fuel no step is asked of the renderer: each specification needs some. -/
theorem renders_zero : Renders 0 where
  flush _ _ _ h := absurd h.2 (by omega)
  typeDecl _ _ _ _ _ h := absurd h.2 (by omega)
  typeBody _ _ _ _ h := absurd h.2.2 (by omega)
  member _ _ _ _ h := absurd h.2 (by omega)
  methodDecl _ _ _ _ _ h := absurd h.2 (by omega)
  fragment _ _ _ _ _ h := absurd h.2 (by omega)
  block _ _ _ _ _ h := absurd h.2 (by omega)
  nestedStmt _ _ _ _ _ h := absurd h.2.2.2 (by omega)
  stmt _ _ _ _ _ h := absurd h.2 (by omega)
  args _ _ _ _ h := absurd h.2.2.2 (by omega)
  expr _ _ _ _ _ h := absurd h.2 (by omega)

theorem renders_succ (ih : Renders f) : Renders (f + 1) :=
  ⟨flushSpec_succ ih, typeDeclSpec_succ ih, typeBodySpec_succ ih, memberSpec_succ ih,
    methodDeclSpec_succ ih, fragmentSpec_succ ih, blockSpec_succ ih, nestedStmtSpec_succ ih,
    stmtSpec_succ ih, argsSpec_succ ih, exprSpec_succ ih⟩

/-- Every function of the renderer meets its specification, at every fuel. -/
theorem renders : ∀ f, Renders f
  | 0 => renders_zero
  | f + 1 => renders_succ (renders f)

end RenderM

end QuickFix.Outline
