import QuickFix.Proofs.IndependentQualifiers
import QuickFix.Proofs.SignatureProposals

/-!
# Operations on nodes outside the unit

Every operation that changes one node names it (`Operation.target?`). Most operations check that
their node is part of the unit before anything reads it, through `EditSession.record` or
`EditSession.requiredChild`, and so fail with the stale-node error naming it when it is not
(`Operation.apply_of_target_outside`). Two read their node first: a change to static access reads
the kind of its qualifier, and a change of arguments the children of its invocation. That read
aborts on a node outside the unit (`Operation.stops`), and it is the only way an operation aborts
(`Operation.apply_eq_abort_iff`).

Main statement: `Fix.outcome_at_target_outside`. When the run of a fix's operations reaches an
operation whose node is outside the unit, making the change stops if that operation reads the
node unchecked, and fails naming the node otherwise; and a fix all of whose operations name
nodes of the unit never stops, its outcome being its change.
-/

namespace QuickFix

namespace EditSession

open ErrorsIn

variable (s : EditSession)

theorem errorsIn_extractBefore (stmt : NodeId) (t : Template) :
    ErrorsIn FixError.OfRecording (s.extractBefore stmt t) := by
  unfold extractBefore check
  dsimp only
  repeat' split
  all_goals first
    | exact of_ok _
    | exact of_error trivial

end EditSession

/-- Adding a stub fails only for want of a declaration of its type. -/
theorem MemberStub.errorsIn_apply (stub : MemberStub) (s : EditSession) :
    ErrorsIn (· = .noSourceDeclaration (s.bindings.qualifiedName stub.target)) (stub.apply s) := by
  unfold MemberStub.apply
  dsimp only
  split
  · split
    · exact ErrorsIn.of_ok _
    · exact ErrorsIn.of_error rfl
  · exact ErrorsIn.of_error rfl

namespace Operation

open EditSession

/-- The node an operation reads before checking that it is in the unit: the qualifier whose kind
decides whether its call is hoisted, the invocation whose arguments are listed. -/
def uncheckedNode? : Operation → Option NodeId
  | toStaticAccess q .. => some q
  | changeArguments inv _ => some inv
  | _ => none

/-- The operation reads a node that is not in the tree before any check. -/
def stops (op : Operation) (t : SyntaxTree) : Bool :=
  match op.uncheckedNode? with
  | some n => !t.contains n
  | none => false

/-- The node read unchecked is the node the operation changes. -/
theorem target?_of_uncheckedNode? {op : Operation} {n : NodeId} (h : op.uncheckedNode? = some n) :
    op.target? = some n := by
  cases op <;> simp_all [uncheckedNode?, target?]

/-- An operation whose node is in the unit does not stop. -/
theorem stops_eq_false {op : Operation} {t : SyntaxTree}
    (h : ∀ n, op.target? = some n → t.contains n = true) : op.stops t = false := by
  unfold stops
  split
  · next n hn => simp [h n (target?_of_uncheckedNode? hn)]
  · rfl

/-- An operation that reads a node outside the unit aborts there. -/
theorem apply_of_stops {op : Operation} {s : EditSession} (h : op.stops s.tree = true) :
    op.apply s = .error .abort := by
  unfold stops at h
  split at h
  · next n hn =>
    have hout : s.tree.get? n = none := SyntaxTree.get?_of_not_contains (by simpa using h)
    cases op <;> cases hn <;> simp only [apply, beginGroup_tree, hout] <;> rfl
  · cases h

open ErrorsIn in
/-- An operation that reads no node outside the unit does not abort: every other step fails, if
at all, as recording fails or for want of a declaration. -/
theorem errorsIn_apply {op : Operation} {s : EditSession} (h : op.stops s.tree = false) :
    ErrorsIn (· ≠ .abort) (op.apply s) := by
  have hrec : ∀ e : FixError, e.OfRecording → e ≠ .abort := by
    rintro e he rfl
    exact he
  cases op with
  | addThisQualifier n _ q => exact (errorsIn_record _ _ _).mono hrec
  | addStaticQualifier n d _ => exact (errorsIn_record _ _ _).mono hrec
  | removeThisQualifier target =>
    -- the child is looked up, then the access or the receiver is recorded
    cases target <;>
      exact ErrorsIn.bind ((errorsIn_requiredChild _ _ _).mono hrec) fun _ _ =>
        (errorsIn_record _ _ _).mono hrec
  | toStaticAccess q d _ _ =>
    -- the qualifier is in the unit, so reading its kind goes through
    have hq : s.tree.contains q = true := by simpa [stops, uncheckedNode?] using h
    unfold apply
    simp only [beginGroup_tree, SyntaxTree.get?_of_contains hq]
    -- a call or an instance creation is first hoisted before its statement
    have hreplace : ∀ x : Except FixError EditSession, ErrorsIn (· ≠ .abort) x →
        ErrorsIn (· ≠ .abort) (x >>= fun s => (s.addImport d).2.replace q (.text (s.addImport d).1)) :=
      fun x hx => ErrorsIn.bind hx fun _ _ => (errorsIn_record _ _ _).mono hrec
    split
    · split
      · exact hreplace _ ((errorsIn_extractBefore _ _ _).mono hrec)
      · exact hreplace _ (of_ok _)
    · exact hreplace _ (of_ok _)
  | createMember stub =>
    exact (MemberStub.errorsIn_apply stub _).mono fun e he => by
      rw [he]
      exact FixError.noConfusion
  | changeArguments inv c =>
    have hinv : s.tree.contains inv = true := by simpa [stops, uncheckedNode?] using h
    unfold apply
    simp only [beginGroup_tree, SyntaxTree.get?_of_contains hinv]
    -- each argument is an old one looked up, or new text
    refine ErrorsIn.bind (mapM fun a _ => ?_) fun _ _ =>
      ErrorsIn.bind ((errorsIn_rebuildList _ _ _ _).mono hrec) fun _ _ => (errorsIn_record _ _ _).mono hrec
    cases a with
    | existing i => exact ErrorsIn.bind ((errorsIn_listItem _ _ _ _).mono hrec) fun _ _ => of_ok _
    | new x => exact of_ok _
  | changeSignature m c =>
    cases hd : s.tree.findDeclaration (.method (s.bindings.eraseMethod m)) with
    | none =>
      rw [apply_changeSignature_of_findDeclaration_eq_none s m c hd]
      exact of_error FixError.noConfusion
    | some decl => exact (errorsIn_apply_changeSignature s m c hd).mono hrec

/-- **An operation aborts exactly where it reads a node outside the unit.** -/
theorem apply_eq_abort_iff {op : Operation} {s : EditSession} :
    op.apply s = .error .abort ↔ op.stops s.tree = true := by
  refine ⟨fun h => ?_, apply_of_stops⟩
  cases hs : op.stops s.tree
  · exact absurd rfl (errorsIn_apply hs _ h)
  · rfl

/-- An operation that names a node outside the unit, and does not read it before checking, fails
naming the node: its first step on the node is a check. -/
theorem apply_of_target_outside {op : Operation} {s : EditSession} {n : NodeId}
    (hn : op.target? = some n) (hout : s.tree.contains n = false)
    (hgo : op.stops s.tree = false) :
    op.apply s = .error (.staleNode s.tree.file n) := by
  cases op with
  | addThisQualifier x _ q =>
    cases hn
    simp only [apply, replace, record_eq, beginGroup_tree, hout, Bool.not_false, if_true]
  | addStaticQualifier x d _ =>
    cases hn
    simp only [apply, replace, record_eq, addImport_tree, beginGroup_tree, hout, Bool.not_false,
      if_true]
  | removeThisQualifier target =>
    cases target <;> cases hn <;>
      simp [apply, requiredChild, stale, hout, bind, Except.bind]
  | toStaticAccess q _ _ _ =>
    cases hn
    simp [stops, uncheckedNode?, hout] at hgo
  | changeArguments inv _ =>
    cases hn
    simp [stops, uncheckedNode?, hout] at hgo
  | createMember _ => cases hn
  | changeSignature _ _ => cases hn

end Operation

namespace Fix

/-- Recording one operation: the rest from the session it ends in, no result if it aborts, its
error otherwise. -/
theorem recordAll_cons (op : Operation) (ops : List Operation) (s : EditSession) :
    recordAll (op :: ops) s = match op.apply s with
      | .ok s' => recordAll ops s'
      | .error .abort => none
      | .error e => some (.error e) := rfl

/-- Recording operations after others: the first ones, then the rest from the session they end
in, unless they stop or fail. -/
theorem recordAll_append (pre ops : List Operation) (s : EditSession) :
    recordAll (pre ++ ops) s = (recordAll pre s).bind fun r => match r with
      | .ok s' => recordAll ops s'
      | .error e => some (.error e) := by
  induction pre generalizing s with
  | nil => rfl
  | cons op pre ih =>
    simp only [List.cons_append, recordAll_cons]
    split
    · exact ih _
    · rfl
    · rfl

/-- Recording keeps the unit. -/
theorem recordAll_tree : ∀ {ops : List Operation} {s s' : EditSession},
    recordAll ops s = some (.ok s') → s'.tree = s.tree
  | [], s, s', h => by
    cases h
    rfl
  | op :: ops, s, s', h => by
    rw [recordAll_cons] at h
    split at h
    · next s₁ h₁ => exact (recordAll_tree h).trans (Operation.apply_extends h₁).tree
    · cases h
    · cases h

/-- With no operation that stops, recording is the fold that `change` makes. -/
theorem recordAll_of_not_stops : ∀ {ops : List Operation} {s : EditSession},
    (∀ op ∈ ops, op.stops s.tree = false) →
      recordAll ops s = some (ops.foldlM (fun s op => op.apply s) s)
  | [], s, _ => rfl
  | op :: ops, s, h => by
    have hop := h op List.mem_cons_self
    rw [recordAll_cons, List.foldlM_cons]
    split
    · next s₁ h₁ =>
      -- the unit is the same after the first operation
      have ht := (Operation.apply_extends h₁).tree
      rw [h₁]
      exact recordAll_of_not_stops fun o ho => ht ▸ h o (List.mem_cons_of_mem op ho)
    · next habort => exact absurd rfl (Operation.errorsIn_apply hop _ habort)
    · next e hne he =>
      rw [he]
      rfl

/-- The outcome of a fix is the run of its operations on the session started on its unit. -/
theorem outcome_of_start {p : Project} {f : Fix} {fmt : Format} {s : EditSession}
    (hs : EditSession.start p f.file fmt = .ok s) :
    f.outcome p fmt = (recordAll f.ops s).map fun r => r.bind (·.finish f.name) := by
  rw [outcome, hs]

/-- The outcome of a fix whose run reaches an operation on a node outside the unit: none if
that operation stops there, the stale-node error naming the node otherwise. -/
theorem outcome_of_reaching_outside {p : Project} {f : Fix} {fmt : Format} {s : EditSession}
    (hs : EditSession.start p f.file fmt = .ok s) {pre post : List Operation} {op : Operation}
    {s' : EditSession} {n : NodeId} (hops : f.ops = pre ++ op :: post)
    (hpre : recordAll pre s = some (.ok s')) (hn : op.target? = some n)
    (hstale : s.tree.contains n = false) :
    f.outcome p fmt = if op.stops s.tree then none else some (.error (.staleNode s.tree.file n)) := by
  -- the run reaches `op` on the same unit
  have ht := recordAll_tree hpre
  rw [outcome_of_start hs, hops, recordAll_append, hpre]
  simp only [Option.bind_some, recordAll_cons]
  cases hstop : op.stops s.tree with
  | true =>
    rw [Operation.apply_of_stops (by rwa [ht])]
    rfl
  | false =>
    rw [Operation.apply_of_target_outside hn (by rwa [ht]) (by rwa [ht]), ht]
    rfl

/-- **Where making a change meets a node outside its unit.** When the run of a fix's operations
reaches an operation whose node is outside the unit, making the change stops there if that
operation reads the node before checking it, and otherwise fails with the stale-node error naming
the node. A fix all of whose operations name nodes of the unit never stops: its outcome is its
change. -/
theorem outcome_at_target_outside {p : Project} {f : Fix} {fmt : Format} {s : EditSession}
    (hs : EditSession.start p f.file fmt = .ok s) :
    (∀ pre op post s' n, f.ops = pre ++ op :: post → recordAll pre s = some (.ok s') →
      op.target? = some n → s.tree.contains n = false →
      f.outcome p fmt =
        if op.stops s.tree then none else some (.error (.staleNode s.tree.file n))) ∧
    ((∀ op ∈ f.ops, ∀ n, op.target? = some n → s.tree.contains n = true) →
      f.outcome p fmt = some (f.change p fmt)) := by
  refine ⟨fun pre op post s' n hops hpre hn hstale =>
    outcome_of_reaching_outside hs hops hpre hn hstale, fun hin => ?_⟩
  rw [outcome_of_start hs,
    recordAll_of_not_stops fun op hop => Operation.stops_eq_false (hin op hop), change, hs]
  rfl

end Fix

/-- The units
```
package p;

public class E {
    static int MAX;
    E other;
    int get() {
        return other.MAX;
    }
}
```
and `package p; public class T { }`, in the files `E.java` and `T.java`. -/
@[irreducible] def staticThroughOtherUnit : Project :=
  let setup : Except String Setup := do
    let s ← [.type .classType "E" "p" none none "E",
        .field "MAX" "E" "int" { isStatic := true } none "MAX",
        .field "other" "E" "E" {} none "other",
        .method "get" "E" [] (some "int") {} false none "get",
        .type .classType "T" "p" none none "T"].foldlM Setup.declare {}
    let e : Outline.SourceUnit :=
      { file := "E.java", package := some "p",
        types := [.mk ⟨12⟩ [.field ⟨0⟩ none, .field ⟨1⟩ none, .method ⟨0⟩ (some
          [.ret (some (.qualified (.name { binding := some (.var ⟨1⟩) })
            { binding := some (.var ⟨0⟩) }))])]] }
    let t : Outline.SourceUnit := { file := "T.java", package := some "p", types := [.mk ⟨13⟩ []] }
    match s.writeUnit e >>= (·.writeUnit t) with
    | .ok s => pure s
    | .error _ => throw "render"
  match setup with
  | .ok s => s.project
  | .error _ => default

/-- A session on `T.java` of `staticThroughOtherUnit`. -/
theorem start_staticThroughOtherUnit :
    EditSession.start staticThroughOtherUnit ⟨"T.java"⟩ default = .ok
      { bindings := staticThroughOtherUnit.bindings,
        tree := (staticThroughOtherUnit.unit? ⟨"T.java"⟩).getD default, format := default,
        imports := ImportPlan.ofTree ((staticThroughOtherUnit.unit? ⟨"T.java"⟩).getD default)
          staticThroughOtherUnit.bindings } :=
  EditSession.start_of_unit (eq_some_getD_of_isSome (by decide +kernel)) default

/-- In `staticThroughOtherUnit`, qualifying with `this` a name that `T.java` does not have fails
naming it. -/
theorem outcome_qualifying_name_outside :
    ∃ s, EditSession.start staticThroughOtherUnit ⟨"T.java"⟩ default = .ok s ∧
      (Fix.mk "Qualify" ⟨"T.java"⟩ [.addThisQualifier ⟨19⟩ "other" none]).outcome
        staticThroughOtherUnit default = some (.error (.staleNode ⟨"T.java"⟩ ⟨19⟩)) := by
  refine ⟨_, start_staticThroughOtherUnit, ?_⟩
  rw [(Fix.outcome_at_target_outside start_staticThroughOtherUnit).1 [] _ [] _ ⟨19⟩ rfl rfl rfl
    (by decide +kernel)]
  have hfile : ((staticThroughOtherUnit.unit? ⟨"T.java"⟩).getD default).file = ⟨"T.java"⟩ := by
    decide +kernel
  simp [Operation.stops, Operation.uncheckedNode?, hfile]

/-- The fix that reaches `MAX` through `E` instead of `other`, made on `T.java` where its
qualifier is not, stops with no result, where a stale-node error would name the qualifier. -/
theorem outcome_stops_on_moved_static_access :
    ∃ f ∈ nonStaticAccessFixes staticThroughOtherUnit ⟨"E.java"⟩
        ⟨.nonStaticAccessToStaticField, 93, 9, []⟩,
      ({ f with file := ⟨"T.java"⟩ } : Fix).outcome staticThroughOtherUnit default = none := by
  -- one fix, of one conversion of the qualifier `other`, node 19 of `E.java`
  have hfixes : (nonStaticAccessFixes staticThroughOtherUnit ⟨"E.java"⟩
      ⟨.nonStaticAccessToStaticField, 93, 9, []⟩).map (·.ops) =
      [[.toStaticAccess ⟨19⟩ ⟨12⟩ "E" .declaringType]] := by
    decide +kernel
  obtain ⟨f, hf, hops⟩ := List.mem_map.1 (hfixes ▸ List.mem_singleton_self _)
  refine ⟨f, hf, ?_⟩
  rw [@Fix.outcome_of_reaching_outside _ { f with file := ⟨"T.java"⟩ } _ _
    start_staticThroughOtherUnit [] [] _ _ ⟨19⟩ hops rfl rfl (by decide +kernel)]
  have hstops : (Operation.toStaticAccess ⟨19⟩ ⟨12⟩ "E" .declaringType).stops
      ((staticThroughOtherUnit.unit? ⟨"T.java"⟩).getD default) = true := by
    decide +kernel
  rw [if_pos hstops]

end QuickFix
