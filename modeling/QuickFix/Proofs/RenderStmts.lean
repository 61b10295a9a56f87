import QuickFix.Proofs.RenderExprs

/-!
# Rendering statements

The steps of `Renders` for variable fragments, blocks, nested statements and statements: when every
function of the renderer meets its specification at fuel `f`, these do at `f + 1`. A statement is
one node written under the innermost open node; its parts are written inside it, each after a
separator, so each comes after the one before.
-/

namespace QuickFix.Outline

open TreeBuilder

/-! ### Weights of lists -/

theorem stmtsWeight_append (ss ss' : List Stmt) :
    stmtsWeight (ss ++ ss') = stmtsWeight ss + stmtsWeight ss' := by
  induction ss with
  | nil => simp [stmtsWeight]
  | cons s ss ih => simp only [List.cons_append, stmtsWeight, ih]; omega

theorem casesWeight_append (cs cs' : List Case) :
    casesWeight (cs ++ cs') = casesWeight cs + casesWeight cs' := by
  induction cs with
  | nil => simp [casesWeight]
  | cons c cs ih =>
    cases c
    simp only [List.cons_append, casesWeight, ih]
    omega

namespace RenderM

/- Lean makes the equation lemmas of a definition when a proof first unfolds it. They are made here,
once, so that the proofs below, elaborated in parallel, do not each wait for them. -/
section
attribute [local simp] stmt Stmt.weight stmtsWeight casesWeight optWeight optStmtWeight nestedStmt fragment
  block
end

variable {f : Nat}

/-- A variable fragment: the name, then `=` and the initializer if any. -/
theorem fragmentSpec_succ (ih : Renders f) : FragmentSpec (f + 1) := by
  intro v init O
  refine Spec.of_at fun st hpre => ?_
  obtain ⟨h, hb⟩ := hpre
  simp only [fragment]
  refine Spec.bind_eq ((spec_start_inside (by decide)).at_ h) ?_
  rintro n st₁ ⟨hin₁, hfr₁, -, -, hp₁⟩
  refine Spec.bind_eq (retouching_setBinding _ _ (by simp)).spec ?_
  rintro _ st₂ hr₂
  refine Spec.bind_eq (spec_read fun _ _ => rfl) ?_
  rintro tb _ rfl
  refine Spec.bind_eq (spec_setIdentifier _ fun _ he => he ▸ (hin₁.minor hr₂.minor).kind) ?_
  rintro _ st₃ hr₃
  have hm₃ := hr₂.minor.trans hr₃.minor
  have hin₃ := hin₁.minor hm₃
  have := hm₃.pendingWeight_eq
  refine Spec.bind_eq ((spec_boundName .name _).at_
    (hin₃.ready (hm₃.fresh hfr₁) (listReady_of_not_listed (by decide)))) ?_
  rintro _ st₄ ⟨hw₄, hp₄⟩
  have hin₄ := hin₃.wrote hw₄
  split
  · rename_i e
    simp only [optWeight] at hb ⊢
    refine Spec.bind_eq (hin₄.text_fresh (by decide)) ?_
    rintro _ st₅ ⟨hin₅, hfr₅, hp₅⟩
    refine Spec.bind_eq ((ih.expr e .initializer (n :: O)).at_
      ⟨hin₅.ready hfr₅ (listReady_of_not_listed (by decide)), by omega⟩) ?_
    rintro _ st₆ ⟨hw₆, hp₆⟩
    refine Spec.bind_eq ((hin₅.wrote hw₆).finish_last) ?_
    rintro _ st₇ ⟨-, hw, hp⟩
    exact Spec.pure_eq ⟨hw.added, by omega⟩
  · refine Spec.bind_eq hin₄.finish_last ?_
    rintro _ st₇ ⟨-, hw, hp⟩
    exact Spec.pure_eq ⟨hw.added, by omega⟩

/-- The end of a block or a switch: back one level, a closing brace on a line of its own, and the
node closed. -/
theorem Inside.close_brace {O : List NodeId} {r : Role} {st₀ st : RenderState} {n : NodeId}
    (h : Inside O r st₀ n st) :
    Spec (· = st) (indentBy (-1) >>= fun _ => newline >>= fun _ => text "\x7d" >>= fun _ => finish)
      fun _ b st' => b = n ∧ Wrote O r st₀ n st' ∧ pendingWeight st' = pendingWeight st := by
  refine Spec.bind_eq (spec_indentBy _) ?_
  rintro _ st₁ hm₁
  refine Spec.bind_eq (spec_newline_fresh.at_ (h.minor hm₁).sound) ?_
  rintro _ st₂ ⟨hm₂, -⟩
  refine Spec.bind_eq (spec_text_minor _) ?_
  rintro _ st₃ hm₃
  have hm := hm₁.trans (hm₂.trans hm₃)
  refine (h.minor hm).finish_last.mono ?_
  rintro _ _ _ rfl ⟨rfl, hw, hp⟩
  exact ⟨rfl, hw, hp.trans hm.pendingWeight_eq⟩

/-- A block: a brace, each statement on a line of its own one level deeper, a closing brace. -/
theorem blockSpec_succ (ih : Renders f) : BlockSpec (f + 1) := by
  intro ss r O
  refine Spec.of_at fun st hpre => ?_
  obtain ⟨h, hb⟩ := hpre
  simp only [block]
  refine Spec.bind_eq ((spec_start_inside (by decide)).at_ h) ?_
  rintro n st₁ ⟨hin₁, -, -, -, hp₁⟩
  refine Spec.bind_eq (spec_text_minor _) ?_
  rintro _ st₂ hm₂
  refine Spec.bind_eq (spec_indentBy _) ?_
  rintro _ st₃ hm₃
  -- after the statements `done`: the block still being written, with the annotations held back
  -- within their weight
  let I : List Stmt → PUnit → RenderState → Prop := fun done _ st' =>
    Inside O r st n st' ∧ pendingWeight st' ≤ pendingWeight st + stmtsWeight done
  have h₀ : I [] PUnit.unit st₃ :=
    ⟨hin₁.minor (hm₂.trans hm₃), by rw [(hm₂.trans hm₃).pendingWeight_eq, stmtsWeight]; omega⟩
  refine Spec.bind_eq (Spec.forIn I h₀ ?_) ?_
  · rintro done s rest _ st' hss ⟨hin', hp'⟩
    have hw : stmtsWeight ss = stmtsWeight done + s.weight + stmtsWeight rest := by
      rw [hss, stmtsWeight_append, stmtsWeight]
      omega
    refine Spec.bind_eq (spec_newline_fresh.at_ hin'.sound) ?_
    rintro _ st₄ ⟨hm₄, hfr₄⟩
    have := hm₄.pendingWeight_eq
    refine Spec.bind_eq ((ih.stmt s .statement (n :: O)).at_
      ⟨(hin'.minor hm₄).ready hfr₄ (listReady_of_not_listed (by decide)), by omega⟩) ?_
    rintro _ st₅ ⟨hw₅, hp₅⟩
    refine Spec.pure_eq ⟨PUnit.unit, rfl, (hin'.minor hm₄).wrote hw₅, ?_⟩
    rw [stmtsWeight_append, stmtsWeight, stmtsWeight]
    omega
  · rintro _ st₄ ⟨hin₄, hp₄⟩
    refine hin₄.close_brace.mono ?_
    rintro _ _ _ rfl ⟨rfl, hw, hp⟩
    exact ⟨hw, by omega⟩

/-- A nested statement: a block on the same line, anything else on the next line one level
deeper. -/
theorem nestedStmtSpec_succ (ih : Renders f) : NestedStmtSpec (f + 1) := by
  intro s r O
  refine Spec.of_at fun st hpre => ?_
  obtain ⟨hs, hO, hr, hb⟩ := hpre
  simp only [nestedStmt]
  split
  · rename_i ss
    refine Spec.bind_eq ((spec_text_fresh (by decide)).at_ hs) ?_
    rintro _ st₁ ⟨hm₁, hfr₁⟩
    have := hm₁.pendingWeight_eq
    refine Spec.bind_eq ((ih.stmt (.block ss) r O).at_
      ⟨⟨hm₁.sound hs, hO, hfr₁, listReady_of_not_listed hr⟩, by omega⟩) ?_
    rintro _ st₂ ⟨hw, hp⟩
    exact Spec.pure_eq ⟨((Added.refl hs).minor hm₁).trans hw.added, by omega⟩
  · refine Spec.bind_eq (spec_indentBy _) ?_
    rintro _ st₁ hm₁
    refine Spec.bind_eq (spec_newline_fresh.at_ (hm₁.sound hs)) ?_
    rintro _ st₂ ⟨hm₂, hfr₂⟩
    have hm := hm₁.trans hm₂
    have := hm.pendingWeight_eq
    refine Spec.bind_eq ((ih.stmt s r O).at_ ⟨⟨hm.sound hs, hO, hfr₂, listReady_of_not_listed hr⟩,
      by omega⟩) ?_
    rintro _ st₃ ⟨hw₃, hp₃⟩
    refine (spec_indentBy _).mono ?_
    rintro _ _ _ rfl hm₄
    have := hm₄.pendingWeight_eq
    exact ⟨((Added.refl hs).minor hm).trans (hw₃.added.minor hm₄), by omega⟩

/-! ### Statements, one constructor at a time -/

section stmt

variable (ih : Renders f) (r : Role) (O : List NodeId)
include ih

theorem spec_stmt_expr (e : Expr) :
    Spec (Fits (f + 1) O r (2 * (Stmt.expr e).weight + 2)) (stmt (f + 1) (.expr e) r)
      (WroteWithin O r (Stmt.expr e).weight) := by
  refine Spec.of_at fun st hpre => ?_
  obtain ⟨h, hb⟩ := hpre
  simp only [Stmt.weight] at hb ⊢
  simp only [stmt]
  refine Spec.bind_eq ((spec_start_inside (by decide)).at_ h) ?_
  rintro n st₁ ⟨hin₁, hfr₁, -, -, hp₁⟩
  refine Spec.bind_eq ((ih.expr e .expression (n :: O)).at_
    ⟨hin₁.ready hfr₁ (listReady_of_not_listed (by decide)), by omega⟩) ?_
  rintro _ st₂ ⟨hw₂, hp₂⟩
  refine Spec.bind_eq ((hin₁.wrote hw₂).text_fresh (by decide)) ?_
  rintro _ st₃ ⟨hin₃, -, hp₃⟩
  refine hin₃.finish_last.mono ?_
  rintro _ _ _ rfl ⟨rfl, hw, hp⟩
  exact ⟨hw, by omega⟩

theorem spec_stmt_localVar (v : VarId) (init : Option Expr) :
    Spec (Fits (f + 1) O r (2 * (Stmt.localVar v init).weight + 2)) (stmt (f + 1) (.localVar v init) r)
      (WroteWithin O r (Stmt.localVar v init).weight) := by
  refine Spec.of_at fun st hpre => ?_
  obtain ⟨h, hb⟩ := hpre
  simp only [Stmt.weight] at hb ⊢
  simp only [stmt]
  refine Spec.bind_eq ((spec_start_inside (by decide)).at_ h) ?_
  rintro n st₁ ⟨hin₁, hfr₁, -, -, hp₁⟩
  refine Spec.bind_eq (spec_read fun _ _ => rfl) ?_
  rintro tb _ rfl
  -- the fragment and the semicolon, after the type if the variable has one
  have hrest : ∀ st₂, Inside O r st n st₂ → Fresh st₂.builder st₂.out →
      pendingWeight st₂ = pendingWeight st →
      Spec (· = st₂) (fragment f v init >>= fun _ => text ";" >>= fun _ => finish)
        fun _ b st' => WroteWithin O r (optWeight init + 1) st b st' := by
    intro st₂ hin₂ hfr₂ hp₂
    refine Spec.bind_eq ((ih.fragment v init (n :: O)).at_
      ⟨hin₂.ready hfr₂ (listReady_of_not_listed (by decide)), by omega⟩) ?_
    rintro _ st₃ ⟨hadd₃, hp₃⟩
    refine Spec.bind_eq ((hin₂.added hadd₃).text_fresh (by decide)) ?_
    rintro _ st₄ ⟨hin₄, -, hp₄⟩
    refine hin₄.finish_last.mono ?_
    rintro _ _ _ rfl ⟨rfl, hw, hp⟩
    exact ⟨hw, by omega⟩
  split
  · refine Spec.bind_eq ((spec_typeRef .type _).at_
      (hin₁.ready hfr₁ (listReady_of_not_listed (by decide)))) ?_
    rintro _ st₂ ⟨hw₂, hp₂⟩
    refine Spec.bind_eq ((hin₁.wrote hw₂).text_fresh (by decide)) ?_
    rintro _ st₃ ⟨hin₃, hfr₃, hp₃⟩
    exact hrest st₃ hin₃ hfr₃ (by omega)
  · exact hrest _ hin₁ hfr₁ hp₁

theorem spec_stmt_ret (value : Option Expr) :
    Spec (Fits (f + 1) O r (2 * (Stmt.ret value).weight + 2)) (stmt (f + 1) (.ret value) r)
      (WroteWithin O r (Stmt.ret value).weight) := by
  refine Spec.of_at fun st hpre => ?_
  obtain ⟨h, hb⟩ := hpre
  simp only [Stmt.weight] at hb ⊢
  simp only [stmt]
  refine Spec.bind_eq ((spec_start_inside (by decide)).at_ h) ?_
  rintro n st₁ ⟨hin₁, -, -, -, hp₁⟩
  refine Spec.bind_eq (hin₁.text_fresh (by decide)) ?_
  rintro _ st₂ ⟨hin₂, -, hp₂⟩
  split
  · rename_i e
    simp only [optWeight] at hb ⊢
    refine Spec.bind_eq (hin₂.text_fresh (by decide)) ?_
    rintro _ st₃ ⟨hin₃, hfr₃, hp₃⟩
    refine Spec.bind_eq ((ih.expr e .expression (n :: O)).at_
      ⟨hin₃.ready hfr₃ (listReady_of_not_listed (by decide)), by omega⟩) ?_
    rintro _ st₄ ⟨hw₄, hp₄⟩
    refine Spec.bind_eq ((hin₃.wrote hw₄).text_fresh (by decide)) ?_
    rintro _ st₅ ⟨hin₅, -, hp₅⟩
    refine hin₅.finish_last.mono ?_
    rintro _ _ _ rfl ⟨rfl, hw, hp⟩
    exact ⟨hw, by omega⟩
  · refine Spec.bind_eq (hin₂.text_fresh (by decide)) ?_
    rintro _ st₃ ⟨hin₃, -, hp₃⟩
    refine hin₃.finish_last.mono ?_
    rintro _ _ _ rfl ⟨rfl, hw, hp⟩
    exact ⟨hw, by omega⟩

/-- A conditional: the condition in parentheses, the branch, and the `else` branch if any, whose
keyword follows a block's brace or stands on a line of its own. -/
theorem spec_stmt_ifThen (c : Expr) (t : Stmt) (e : Option Stmt) :
    Spec (Fits (f + 1) O r (2 * (Stmt.ifThen c t e).weight + 2)) (stmt (f + 1) (.ifThen c t e) r)
      (WroteWithin O r (Stmt.ifThen c t e).weight) := by
  refine Spec.of_at fun st hpre => ?_
  obtain ⟨h, hb⟩ := hpre
  simp only [Stmt.weight] at hb ⊢
  simp only [stmt]
  refine Spec.bind_eq ((spec_start_inside (by decide)).at_ h) ?_
  rintro n st₁ ⟨hin₁, -, -, -, hp₁⟩
  refine Spec.bind_eq (hin₁.text_fresh (by decide)) ?_
  rintro _ st₂ ⟨hin₂, hfr₂, hp₂⟩
  refine Spec.bind_eq ((ih.expr c .condition (n :: O)).at_
    ⟨hin₂.ready hfr₂ (listReady_of_not_listed (by decide)), by omega⟩) ?_
  rintro _ st₃ ⟨hw₃, hp₃⟩
  refine Spec.bind_eq ((hin₂.wrote hw₃).text_fresh (by decide)) ?_
  rintro _ st₄ ⟨hin₄, -, hp₄⟩
  refine Spec.bind_eq ((ih.nestedStmt t .thenBranch (n :: O)).at_
    ⟨hin₄.sound, List.cons_ne_nil _ _, by decide, by omega⟩) ?_
  rintro _ st₅ ⟨hadd₅, hp₅⟩
  have hin₅ := hin₄.added hadd₅
  split
  · rename_i o
    simp only [optStmtWeight] at hb ⊢
    split
    -- the keyword, after a block's brace or on a line of its own
    on_goal 1 =>
      refine Spec.bind_eq (hin₅.text_fresh (by decide)) ?_
      rintro _ st₆ ⟨hin₆, -, hp₆⟩
    on_goal 2 =>
      refine Spec.bind_eq (spec_newline_fresh.at_ hin₅.sound) ?_
      rintro _ st' ⟨hm', -⟩
      have := hm'.pendingWeight_eq
      refine Spec.bind_eq ((hin₅.minor hm').text_fresh (by decide)) ?_
      rintro _ st₆ ⟨hin₆, -, hp₆⟩
    all_goals
      split
      · -- `else if`: a space, then the conditional itself
        rename_i c' t' e'
        refine Spec.bind_eq (hin₆.text_fresh (by decide)) ?_
        rintro _ st₇ ⟨hin₇, hfr₇, hp₇⟩
        refine Spec.bind_eq ((ih.stmt (.ifThen c' t' e') .elseBranch (n :: O)).at_
          ⟨hin₇.ready hfr₇ (listReady_of_not_listed (by decide)), by omega⟩) ?_
        rintro _ st₈ ⟨hw₈, hp₈⟩
        refine (hin₇.wrote hw₈).finish_last.mono ?_
        rintro _ _ _ rfl ⟨rfl, hw, hp⟩
        exact ⟨hw, by omega⟩
      · refine Spec.bind_eq ((ih.nestedStmt o .elseBranch (n :: O)).at_
          ⟨hin₆.sound, List.cons_ne_nil _ _, by decide, by omega⟩) ?_
        rintro _ st₈ ⟨hadd₈, hp₈⟩
        refine (hin₆.added hadd₈).finish_last.mono ?_
        rintro _ _ _ rfl ⟨rfl, hw, hp⟩
        exact ⟨hw, by omega⟩
  · refine hin₅.finish_last.mono ?_
    rintro _ _ _ rfl ⟨rfl, hw, hp⟩
    exact ⟨hw, by omega⟩

theorem spec_stmt_whileLoop (c : Expr) (body : Stmt) :
    Spec (Fits (f + 1) O r (2 * (Stmt.whileLoop c body).weight + 2))
      (stmt (f + 1) (.whileLoop c body) r) (WroteWithin O r (Stmt.whileLoop c body).weight) := by
  refine Spec.of_at fun st hpre => ?_
  obtain ⟨h, hb⟩ := hpre
  simp only [Stmt.weight] at hb ⊢
  simp only [stmt]
  refine Spec.bind_eq ((spec_start_inside (by decide)).at_ h) ?_
  rintro n st₁ ⟨hin₁, -, -, -, hp₁⟩
  refine Spec.bind_eq (hin₁.text_fresh (by decide)) ?_
  rintro _ st₂ ⟨hin₂, hfr₂, hp₂⟩
  refine Spec.bind_eq ((ih.expr c .condition (n :: O)).at_
    ⟨hin₂.ready hfr₂ (listReady_of_not_listed (by decide)), by omega⟩) ?_
  rintro _ st₃ ⟨hw₃, hp₃⟩
  refine Spec.bind_eq ((hin₂.wrote hw₃).text_fresh (by decide)) ?_
  rintro _ st₄ ⟨hin₄, -, hp₄⟩
  refine Spec.bind_eq ((ih.nestedStmt body .body (n :: O)).at_
    ⟨hin₄.sound, List.cons_ne_nil _ _, by decide, by omega⟩) ?_
  rintro _ st₅ ⟨hadd₅, hp₅⟩
  refine (hin₄.added hadd₅).finish_last.mono ?_
  rintro _ _ _ rfl ⟨rfl, hw, hp⟩
  exact ⟨hw, by omega⟩

theorem spec_stmt_block (ss : List Stmt) :
    Spec (Fits (f + 1) O r (2 * (Stmt.block ss).weight + 2)) (stmt (f + 1) (.block ss) r)
      (WroteWithin O r (Stmt.block ss).weight) := by
  refine Spec.of_at fun st hpre => ?_
  obtain ⟨h, hb⟩ := hpre
  simp only [Stmt.weight] at hb ⊢
  simp only [stmt]
  refine ((ih.block ss r O).at_ ⟨h, by omega⟩).mono ?_
  rintro _ _ _ rfl ⟨hw, hp⟩
  exact ⟨hw, by omega⟩

/-- A switch: the selector, then each case on a line of its own, its label as a node and its
statements one level deeper, all inside the switch. -/
theorem spec_stmt_switch (sel : Expr) (cases : List Case) :
    Spec (Fits (f + 1) O r (2 * (Stmt.switch sel cases).weight + 2))
      (stmt (f + 1) (.switch sel cases) r) (WroteWithin O r (Stmt.switch sel cases).weight) := by
  refine Spec.of_at fun st hpre => ?_
  obtain ⟨h, hb⟩ := hpre
  simp only [Stmt.weight] at hb ⊢
  simp only [stmt]
  refine Spec.bind_eq ((spec_start_inside (by decide)).at_ h) ?_
  rintro n st₁ ⟨hin₁, -, -, -, hp₁⟩
  refine Spec.bind_eq (hin₁.text_fresh (by decide)) ?_
  rintro _ st₂ ⟨hin₂, hfr₂, hp₂⟩
  refine Spec.bind_eq ((ih.expr sel .expression (n :: O)).at_
    ⟨hin₂.ready hfr₂ (listReady_of_not_listed (by decide)), by omega⟩) ?_
  rintro _ st₃ ⟨hw₃, hp₃⟩
  refine Spec.bind_eq (spec_text_minor _) ?_
  rintro _ st₄ hm₄
  refine Spec.bind_eq (spec_indentBy _) ?_
  rintro _ st₅ hm₅
  have hm := hm₄.trans hm₅
  have := hm.pendingWeight_eq
  -- after the cases `done`: the switch still being written, with the annotations held back
  -- within the weight of the selector and of those cases
  let I : List Case → PUnit → RenderState → Prop := fun done _ st' =>
    Inside O r st n st' ∧ pendingWeight st' ≤ pendingWeight st + sel.weight + casesWeight done
  have h₀ : I [] PUnit.unit st₅ := ⟨(hin₂.wrote hw₃).minor hm, by rw [casesWeight]; omega⟩
  refine Spec.bind_eq (Spec.forIn I h₀ ?_) ?_
  · rintro done ⟨label, body⟩ rest _ st' hcs ⟨hin', hp'⟩
    have hw : casesWeight cases =
        casesWeight done + (optWeight label + stmtsWeight body + 1) + casesWeight rest := by
      rw [hcs, casesWeight_append, casesWeight]
      omega
    -- the statements of the case, after its label, one level deeper
    have hbody : ∀ st₈, Inside O r st n st₈ → pendingWeight st₈ ≤ pendingWeight st' + optWeight label →
        Spec (· = st₈) (indentBy 1 >>= fun _ => forIn body PUnit.unit (fun s _ =>
            newline >>= fun _ => stmt f s .statement >>= fun _ => pure (ForInStep.yield PUnit.unit))
          >>= fun _ => indentBy (-1) >>= fun _ => pure (ForInStep.yield PUnit.unit))
          fun _ r' st₉ => ∃ b', r' = .yield b' ∧ I (done ++ [.mk label body]) b' st₉ := by
      intro st₈ hin₈ hp₈
      refine Spec.bind_eq (spec_indentBy _) ?_
      rintro _ st₉ hm₉
      let J : List Stmt → PUnit → RenderState → Prop := fun sdone _ st'' =>
        Inside O r st n st'' ∧
          pendingWeight st'' ≤ pendingWeight st' + optWeight label + stmtsWeight sdone
      have j₀ : J [] PUnit.unit st₉ :=
        ⟨hin₈.minor hm₉, by rw [hm₉.pendingWeight_eq, stmtsWeight]; omega⟩
      refine Spec.bind_eq (Spec.forIn J j₀ ?_) ?_
      · rintro sdone s srest _ st'' hbs ⟨hin'', hp''⟩
        have hsw : stmtsWeight body = stmtsWeight sdone + s.weight + stmtsWeight srest := by
          rw [hbs, stmtsWeight_append, stmtsWeight]
          omega
        refine Spec.bind_eq (spec_newline_fresh.at_ hin''.sound) ?_
        rintro _ st₁₀ ⟨hm₁₀, hfr₁₀⟩
        have := hm₁₀.pendingWeight_eq
        refine Spec.bind_eq ((ih.stmt s .statement (n :: O)).at_
          ⟨(hin''.minor hm₁₀).ready hfr₁₀ (listReady_of_not_listed (by decide)), by omega⟩) ?_
        rintro _ st₁₁ ⟨hw₁₁, hp₁₁⟩
        refine Spec.pure_eq ⟨PUnit.unit, rfl, (hin''.minor hm₁₀).wrote hw₁₁, ?_⟩
        rw [stmtsWeight_append, stmtsWeight, stmtsWeight]
        omega
      · rintro _ st₁₂ ⟨hin₁₂, hp₁₂⟩
        refine Spec.bind_eq (spec_indentBy _) ?_
        rintro _ st₁₃ hm₁₃
        refine Spec.pure_eq ⟨PUnit.unit, rfl, hin₁₂.minor hm₁₃, ?_⟩
        rw [hm₁₃.pendingWeight_eq, casesWeight_append, casesWeight, casesWeight]
        omega
    refine Spec.bind_eq (spec_newline_fresh.at_ hin'.sound) ?_
    rintro _ st₆ ⟨hm₆, hfr₆⟩
    have := hm₆.pendingWeight_eq
    refine Spec.bind_eq ((spec_start_inside (by decide)).at_
      ((hin'.minor hm₆).ready hfr₆ (listReady_of_not_listed (by decide)))) ?_
    rintro cn st₇ ⟨hcin₇, -, -, -, hcp₇⟩
    split
    · -- `case`, the label, a colon
      rename_i l
      simp only [optWeight] at hw hbody
      refine Spec.bind_eq (hcin₇.text_fresh (by decide)) ?_
      rintro _ st₈ ⟨hcin₈, hcfr₈, hcp₈⟩
      refine Spec.bind_eq ((ih.expr l .caseLabel (cn :: n :: O)).at_
        ⟨hcin₈.ready hcfr₈ (listReady_of_not_listed (by decide)), by omega⟩) ?_
      rintro _ st₉ ⟨hw₉, hp₉⟩
      refine Spec.bind_eq ((hcin₈.wrote hw₉).text_fresh (by decide)) ?_
      rintro _ st₁₀ ⟨hcin₁₀, -, hp₁₀⟩
      refine Spec.bind_eq hcin₁₀.finish_last ?_
      rintro _ st₁₁ ⟨-, hcw, hp₁₁⟩
      exact hbody st₁₁ ((hin'.minor hm₆).wrote hcw) (by omega)
    · refine Spec.bind_eq (hcin₇.text_fresh (by decide)) ?_
      rintro _ st₈ ⟨hcin₈, -, hcp₈⟩
      refine Spec.bind_eq hcin₈.finish_last ?_
      rintro _ st₉ ⟨-, hcw, hp₉⟩
      exact hbody st₉ ((hin'.minor hm₆).wrote hcw) (by simp only [optWeight]; omega)
  · rintro _ st₆ ⟨hin₆, hp₆⟩
    refine hin₆.close_brace.mono ?_
    rintro _ _ _ rfl ⟨rfl, hw, hp⟩
    exact ⟨hw, by omega⟩

end stmt

/-- Each statement is one node written, by the step for its constructor. -/
theorem stmtSpec_succ (ih : Renders f) : StmtSpec (f + 1) := by
  intro s r O
  cases s with
  | expr e => exact spec_stmt_expr ih r O e
  | localVar v init => exact spec_stmt_localVar ih r O v init
  | ret value => exact spec_stmt_ret ih r O value
  | ifThen c t e => exact spec_stmt_ifThen ih r O c t e
  | whileLoop c body => exact spec_stmt_whileLoop ih r O c body
  | block ss => exact spec_stmt_block ih r O ss
  | switch sel cases => exact spec_stmt_switch ih r O sel cases

end RenderM

end QuickFix.Outline
