import QuickFix.Proofs.StaticAccessTypes
import QuickFix.Fix.Unresolved.Proposals
import QuickFix.Setup.Declaration

/-!
# Proposals that change a method's signature

For a call that no declaration accepts, the proposals include changing the parameters of a
declaration of the called name (`ReferenceSite.invocationProposals`). The proposal is made when
the method's declaring type is declared in source, and the change is written at the declaration
of the method's erasure in that unit (`Operation.apply`). Nothing checks, when proposing, that the
unit has that declaration: a constructor known to the bindings but not written out has none.

Main statement (`signatureProposal_fails_iff_no_declaration`): every proposal that changes a
signature is that one operation, in the unit that declares the method's type, and creating its
change fails with `noMethodDeclaration` exactly when that unit has no declaration of the method;
any other failure is one of writing (`FixError.OfWriting`), which is all that recording and
writing changes can fail with (`EditSession.errorsIn_finish`). For a constructor that the unit
does not declare, the proposal is made and cannot be written
(`unresolvedProposals_offers_unwritable_signature_change`).
-/

namespace QuickFix


/-- Every error that the computation can end in satisfies `P`. -/
def ErrorsIn {ε α : Type} (P : ε → Prop) (x : Except ε α) : Prop :=
  ∀ e, x = .error e → P e

namespace ErrorsIn

variable {ε α β : Type} {P : ε → Prop}

theorem of_ok (a : α) : ErrorsIn P (.ok a : Except ε α) := fun _ h => by cases h

theorem of_error {e : ε} (h : P e) : ErrorsIn P (.error e : Except ε α) :=
  fun _ he => by cases he; exact h

theorem bind {x : Except ε α} {f : α → Except ε β} (hx : ErrorsIn P x)
    (hf : ∀ a, x = .ok a → ErrorsIn P (f a)) : ErrorsIn P (x >>= f) := by
  intro e h
  cases hxa : x with
  | error e' =>
    rw [hxa] at h
    obtain rfl : e' = e := Except.error.inj h
    exact hx e' hxa
  | ok a =>
    rw [hxa] at h
    exact hf a hxa e h

theorem mapM {f : α → Except ε β} : ∀ {l : List α}, (∀ a ∈ l, ErrorsIn P (f a)) →
    ErrorsIn P (l.mapM f)
  | [], _ => of_ok _
  | a :: l, h => by
    rw [List.mapM_cons]
    exact bind (h a (.head _)) fun _ _ =>
      bind (mapM fun a' ha' => h a' (.tail _ ha')) fun _ _ => of_ok _

theorem foldlM {f : β → α → Except ε β} (hf : ∀ b a, ErrorsIn P (f b a)) :
    ∀ (l : List α) (b : β), ErrorsIn P (l.foldlM f b)
  | [], _ => of_ok _
  | a :: l, b => by
    rw [List.foldlM_cons]
    exact bind (hf b a) fun b' _ => foldlM hf l b'

theorem mono {Q : ε → Prop} {x : Except ε α} (h : ErrorsIn P x) (hPQ : ∀ e, P e → Q e) :
    ErrorsIn Q x :=
  fun e he => hPQ e (h e he)

theorem mapError {ε' : Type} {x : Except ε' α} {g : ε' → ε} (hg : ∀ e, P (g e)) :
    ErrorsIn P (x.mapError g) := by
  intro e h
  cases x with
  | error e' =>
    obtain rfl : g e' = e := Except.error.inj h
    exact hg e'
  | ok a => cases h

end ErrorsIn


/-- The errors of recording a change in a session: a node that is not in its unit, a node
changed twice. -/
def FixError.OfRecording : FixError → Prop
  | .staleNode .. | .conflictingChange .. => True
  | _ => False

/-- The errors of writing changes into a unit: a node that is not in it, a node changed twice,
edits that cannot be applied, and the abort of an edit moved to a node's start from before it. -/
def FixError.OfWriting : FixError → Prop
  | .staleNode .. | .conflictingChange .. | .edit _ | .abort => True
  | _ => False

theorem FixError.OfRecording.ofWriting : ∀ {e : FixError}, e.OfRecording → e.OfWriting
  | .staleNode .., _ | .conflictingChange .., _ => trivial

namespace EditSession

variable (s : EditSession)

open ErrorsIn

theorem errorsIn_record (n : NodeId) (c : NodeChange) :
    ErrorsIn FixError.OfRecording (s.record n c) := by
  rw [record_eq]
  split
  · exact of_error trivial
  split
  · exact of_error trivial
  · exact of_ok _

theorem errorsIn_requiredChild (n : NodeId) (r : Role) :
    ErrorsIn FixError.OfRecording (s.requiredChild n r) := by
  unfold requiredChild
  split
  · exact of_error trivial
  split
  · exact of_ok _
  · exact of_error trivial

theorem errorsIn_listItem (owner : NodeId) (items : List NodeId) (i : Nat) :
    ErrorsIn FixError.OfRecording (s.listItem owner items i) := by
  unfold listItem
  split
  · exact of_ok _
  · exact of_error trivial

theorem errorsIn_rebuildList (owner : NodeId) (role : Role) (items : List Template) :
    ErrorsIn FixError.OfRecording (s.rebuildList owner role items) := by
  unfold rebuildList
  simp only
  repeat' split
  all_goals first
    | exact of_ok _
    | exact of_error trivial

theorem errorsIn_collect (fuel : Nat) :
    (∀ n, ErrorsIn FixError.OfWriting (s.collectNode fuel n)) ∧
    (∀ n, ErrorsIn FixError.OfWriting (s.collectChildren fuel n)) ∧
    (∀ n c g, ErrorsIn FixError.OfWriting (s.renderChange fuel n c g)) ∧
    (∀ t, ErrorsIn FixError.OfWriting (s.render fuel t)) ∧
    (∀ n, ErrorsIn FixError.OfWriting (s.renderNode fuel n)) := by
  induction fuel with
  | zero =>
    refine ⟨fun n => ?_, fun n => ?_, fun n c g => ?_, fun t => ?_, fun n => ?_⟩ <;>
      exact of_error trivial
  | succ k ih =>
    obtain ⟨hnode, hchildren, hchange, hrender, hrenderNode⟩ := ih
    refine ⟨fun n => ?_, fun n => ?_, fun n c g => ?_, fun t => ?_, fun n => ?_⟩
    · -- the hoisted statements, then the node's change or its children
      rw [collectNode.eq_2]
      split
      · refine bind (mapM fun x _ => ?_) fun _ _ => bind (of_ok _) fun _ _ => ?_
        · obtain ⟨t, _⟩ := x
          exact bind (hrender t) fun _ _ => of_ok _
        · split
          · exact bind (hchange _ _ _) fun _ _ => of_ok _
          · exact bind (hchildren n) fun _ _ => of_ok _
      · refine bind (of_ok _) fun _ _ => ?_
        split
        · exact bind (hchange _ _ _) fun _ _ => of_ok _
        · exact bind (hchildren n) fun _ _ => of_ok _
    · rw [collectChildren.eq_2]
      exact bind (mapM fun c _ => hnode c) fun _ _ => of_ok _
    · cases c with
      | replace t =>
        rw [renderChange.eq_2]
        exact bind (hrender t) fun _ _ => of_ok _
      | remove =>
        rw [renderChange.eq_3]
        exact of_ok _
      | wrapInBlock hoisted =>
        rw [renderChange.eq_4]
        dsimp only
        exact bind (mapM fun h _ => bind (hrender h) fun _ _ => of_ok _) fun _ _ =>
          bind (hrenderNode n) fun _ _ => of_ok _
    · cases t with
      | text x =>
        rw [render.eq_2]
        exact of_ok _
      | node m =>
        rw [render.eq_3]
        exact hrenderNode m
      | concat ps =>
        rw [render.eq_4]
        exact bind (mapM fun p _ => hrender p) fun _ _ => of_ok _
    · rw [renderNode.eq_2]
      refine bind ?_ fun _ _ => bind (hchildren n) fun _ _ => bind (mapM fun p _ => ?_) fun _ _ =>
        mapError fun _ => trivial
      · unfold check
        split
        · exact of_ok _
        · exact of_error trivial
      · -- an edit moved to the node's start aborts where it starts before the node
        split
        · exact of_ok _
        · exact of_error trivial

theorem errorsIn_finish (name : String) : ErrorsIn FixError.OfWriting (s.finish name) := by
  unfold finish
  exact bind ((s.errorsIn_collect s.fuel).1 _) fun _ _ =>
    bind (mapError fun _ => trivial) fun _ _ => of_ok _

end EditSession

namespace Operation

open ErrorsIn

variable (s : EditSession) (m : MethodId) (ch : SignatureChange)

/-- A signature is changed at the declaration of the method's erasure, and without one the
change fails, naming the method. -/
theorem apply_changeSignature_of_findDeclaration_eq_none
    (h : s.tree.findDeclaration (.method (s.bindings.eraseMethod m)) = none) :
    (Operation.changeSignature m ch).apply s = .error (.noMethodDeclaration (s.bindings.method m).name) := by
  unfold apply
  simp only [EditSession.beginGroup]
  rw [h]
  rfl

/-- Past the declaration, changing a signature fails only as recording fails. -/
theorem errorsIn_apply_changeSignature {decl : NodeId}
    (h : s.tree.findDeclaration (.method (s.bindings.eraseMethod m)) = some decl) :
    ErrorsIn FixError.OfRecording ((Operation.changeSignature m ch).apply s) := by
  unfold apply
  simp only [EditSession.beginGroup]
  rw [h]
  dsimp only
  -- each slot looks up an old parameter and its name, or adds a type and a name
  refine bind (foldlM (fun r slot => ?_) _ _) fun r _ =>
    bind (r.2.errorsIn_rebuildList _ _ _) fun _ _ => r.2.errorsIn_record _ _
  cases slot with
  | existing i => exact bind (r.2.errorsIn_listItem _ _ _) fun _ _ => of_ok _
  | retyped i ty =>
    exact bind (r.2.errorsIn_listItem _ _ _) fun _ _ =>
      bind (r.2.errorsIn_requiredChild _ _) fun _ _ => of_ok _
  | new ty name => exact of_ok _

end Operation

/-- **A fix that changes a signature fails for want of a declaration exactly when there is
none.** For a fix whose one operation changes the parameters of `m`, on a file of the project,
creating the change fails with `noMethodDeclaration`, naming `m`, exactly when the unit has no
declaration of the erasure of `m`; every other failure is one of writing. -/
theorem Fix.change_fails_iff_no_declaration {p : Project} {f : Fix} {t : SyntaxTree}
    (ht : p.unit? f.file = some t) {m : MethodId} {ch : SignatureChange}
    (hops : f.ops = [.changeSignature m ch]) (fmt : Format) :
    f.change p fmt = .error (.noMethodDeclaration (p.bindings.method m).name) ↔
      t.findDeclaration (.method (p.bindings.eraseMethod m)) = none := by
  unfold Fix.change
  simp only [EditSession.start, ht, hops, List.foldlM_cons, List.foldlM_nil]
  rw [show ∀ (a : EditSession) (g : EditSession → Except FixError UnitChange),
    (Except.ok a >>= g) = g a from fun _ _ => rfl]
  cases hd : t.findDeclaration (.method (p.bindings.eraseMethod m)) with
  | none =>
    simp only [iff_true]
    rw [Operation.apply_changeSignature_of_findDeclaration_eq_none _ _ _ hd]
    rfl
  | some decl =>
    simp only [reduceCtorEq, iff_false]
    intro h
    -- past the declaration, the operation and the writing fail only as writing fails
    refine (?_ : ErrorsIn FixError.OfWriting _) _ h
    exact ErrorsIn.bind (ErrorsIn.bind ((Operation.errorsIn_apply_changeSignature _ m ch hd).mono
      fun _ => FixError.OfRecording.ofWriting) fun _ _ => ErrorsIn.of_ok _) fun s' _ =>
        s'.errorsIn_finish _



namespace ReferenceSite
variable (cx : ReferenceSite)

theorem createInvoked_ops {c : Call} {f : Fix} (h : cx.createInvoked c = some f) :
    ∃ stub, f.ops = [.createMember stub] := by
  unfold createInvoked at h
  simp only at h
  obtain ⟨file, -, h⟩ := Option.bind_eq_some_iff.1 h
  obtain ⟨site, -, h⟩ := Option.bind_eq_some_iff.1 h
  split at h
  · cases h
  · exact ⟨_, congrArg Fix.ops (Fix.eq_of_mk?_eq_some h)⟩

theorem fieldProposals_ops {covering : NodeId} {f : Fix} (h : f ∈ cx.fieldProposals covering) :
    ∃ stub, f.ops = [.createMember stub] := by
  unfold fieldProposals at h
  simp only [Option.mem_toList, Option.bind_eq_bind, Option.bind_none] at h
  -- a simple name, or the name of a qualified name or field access
  split at h
  all_goals try cases h
  all_goals
    obtain ⟨name, -, h⟩ := Option.bind_eq_some_iff.1 h
    split at h
    · cases h
    obtain ⟨identifier, -, h⟩ := Option.bind_eq_some_iff.1 h
    obtain ⟨target, -, h⟩ := Option.bind_eq_some_iff.1 h
    split at h
    · cases h
    obtain ⟨file, -, h⟩ := Option.bind_eq_some_iff.1 h
    obtain ⟨site, -, h⟩ := Option.bind_eq_some_iff.1 h
    exact ⟨_, congrArg Fix.ops (Fix.eq_of_mk?_eq_some h)⟩

theorem attributeProposals_ops {covering : NodeId} {f : Fix} (h : f ∈ cx.attributeProposals covering) :
    ∃ stub, f.ops = [.createMember stub] := by
  unfold attributeProposals at h
  simp only [Option.mem_toList, Option.bind_eq_bind] at h
  obtain ⟨pair, -, h⟩ := Option.bind_eq_some_iff.1 h
  obtain ⟨ann, -, h⟩ := Option.bind_eq_some_iff.1 h
  obtain ⟨ann, -, h⟩ := Option.bind_eq_some_iff.1 h
  obtain ⟨name, -, h⟩ := Option.bind_eq_some_iff.1 h
  obtain ⟨identifier, -, h⟩ := Option.bind_eq_some_iff.1 h
  obtain ⟨file, -, h⟩ := Option.bind_eq_some_iff.1 h
  exact ⟨_, congrArg Fix.ops (Fix.eq_of_mk?_eq_some h)⟩

theorem mem_invocationProposals {covering : NodeId} {kind : ProblemKind} {f : Fix}
    (h : f ∈ cx.invocationProposals covering kind) :
    (∃ stub, f.ops = [.createMember stub]) ∨ (∃ n ch, f.ops = [.changeArguments n ch]) ∨
      ∃ m ch, f.ops = [.changeSignature m ch] ∧
        cx.sourceFile (cx.bindings.method m).declaring = some f.file := by
  unfold invocationProposals at h
  simp only at h
  split at h
  · cases h
  next c _ =>
  -- the three lists, in either order
  have hcall : ∀ m, (∃ ch ∈ CallArgument.argumentChanges cx.tree cx.bindings m c.args,
      Fix.mk? ch.label cx.file [.changeArguments c.node ch] = some f) →
      ∃ n ch, f.ops = [.changeArguments n ch] := by
    rintro m ⟨ch, -, h⟩
    exact ⟨_, _, congrArg Fix.ops (Fix.eq_of_mk?_eq_some h)⟩
  generalize cx.candidates c = candidates at h
  split at h
  · cases h
  -- a mismatch of parameters puts creating the member last
  split at h
  all_goals simp only [List.mem_append, List.mem_flatMap, List.mem_filterMap, Option.mem_toList,
    or_assoc] at h
  all_goals rcases h with h | h | h
  all_goals first
    | exact .inl (cx.createInvoked_ops h)
    | (obtain ⟨m, -, hm⟩ := h; exact .inr (.inl (hcall m hm)))
    | (obtain ⟨m, -, hm⟩ := h
       -- a change of signature is proposed only where the declaring type is in source
       split at hm
       · cases hm
       next file hfile =>
       obtain ⟨ch, -, hm⟩ := List.mem_filterMap.1 hm
       obtain rfl := Fix.eq_of_mk?_eq_some hm
       exact .inr (.inr ⟨m, ch, rfl, hfile⟩))

end ReferenceSite

/-- The unit that declares a type in source is the unit of its own file. -/
theorem Project.unit?_of_typeDeclaration {p : Project} {ty : TypeId} {t : SyntaxTree} {n : NodeId}
    (h : p.typeDeclaration ty = some (t, n)) : p.unit? t.file = some t := by
  unfold Project.typeDeclaration at h
  obtain ⟨file, -, h⟩ := Option.bind_eq_some_iff.1 h
  obtain ⟨tree, htree, h⟩ := Option.bind_eq_some_iff.1 h
  obtain ⟨node, -, h⟩ := Option.bind_eq_some_iff.1 h
  cases h
  have hfile : t.file = file := by simpa using List.find?_some htree
  rw [hfile]
  exact htree

/-- Every proposal for an unresolved reference is one operation: creating a member, changing a
call's arguments, or changing the parameters of a method in the unit that declares the
method's type. -/
theorem mem_unresolvedProposals {p : Project} {file : FileId} {pr : Problem} {f : Fix}
    (h : f ∈ unresolvedProposals p file pr) :
    (∃ stub, f.ops = [.createMember stub]) ∨ (∃ n ch, f.ops = [.changeArguments n ch]) ∨
      ∃ m ch, f.ops = [.changeSignature m ch] ∧ ∃ t node,
        p.typeDeclaration (p.bindings.erase (p.bindings.method m).declaring) = some (t, node) ∧
          t.file = f.file := by
  unfold unresolvedProposals at h
  split at h
  · cases h
  split at h
  · cases h
  next t _ =>
  split at h
  · cases h
  next covering _ =>
  split at h
  -- calls and instance creations
  any_goals
    rcases ReferenceSite.mem_invocationProposals _ h with hc | hc | ⟨m, ch, hops, hsrc⟩
    · exact .inl hc
    · exact .inr (.inl hc)
    · obtain ⟨⟨t', node⟩, htd, hfile⟩ := Option.map_eq_some_iff.1 hsrc
      exact .inr (.inr ⟨m, ch, hops, t', node, htd, hfile⟩)
  -- fields and names, and attributes of annotations
  · exact .inl (ReferenceSite.fieldProposals_ops _ h)
  · exact .inl (ReferenceSite.fieldProposals_ops _ h)
  · exact .inl (ReferenceSite.attributeProposals_ops _ h)
  · cases h

/-- **A proposed signature change fails exactly when the method is not declared.** Every
proposal for an unresolved reference that changes the parameters of a method `m` is that one
operation, made in the unit that declares the type of `m`; creating its change fails with
`noMethodDeclaration`, naming `m`, exactly when that unit has no declaration of the erasure of
`m`. The proposal itself is made without looking for that declaration. -/
theorem signatureProposal_fails_iff_no_declaration (p : Project) (file : FileId) (pr : Problem) :
    ∀ f ∈ unresolvedProposals p file pr, ∀ m ch, Operation.changeSignature m ch ∈ f.ops →
      f.ops = [.changeSignature m ch] ∧ ∃ t node,
        p.typeDeclaration (p.bindings.erase (p.bindings.method m).declaring) = some (t, node) ∧
          f.file = t.file ∧ ∀ fmt,
            (f.change p fmt = .error (.noMethodDeclaration (p.bindings.method m).name) ↔
              t.findDeclaration (.method (p.bindings.eraseMethod m)) = none) := by
  intro f hf m ch hm
  rcases mem_unresolvedProposals hf with ⟨stub, hops⟩ | ⟨n, ch', hops⟩ | ⟨m', ch', hops, t, node, htd, hfile⟩
  · simp [hops] at hm
  · simp [hops] at hm
  · rw [hops, List.mem_singleton, Operation.changeSignature.injEq] at hm
    obtain ⟨rfl, rfl⟩ := hm
    have ht : p.unit? f.file = some t := hfile ▸ Project.unit?_of_typeDeclaration htd
    exact ⟨hops, t, node, htd, hfile.symm, fun fmt => Fix.change_fails_iff_no_declaration ht hops fmt⟩

/-- The program of two units,
```
package p;

public class T {
}
```
and
```
package p;

public class E {
    void run() {
        new T(5);
    }
}
```
where the bindings know a constructor `T()` that `T.java` does not write out. -/
def undeclaredConstructor : Project :=
  let setup : Except String Setup := do
    let s ← [.type .classType "T" "p" none none "T", .constructor "T" [] {} false "new T",
        .type .classType "E" "p" none none "E",
        .method "run" "E" [] none {} false none "run"].foldlM Setup.declare {}
    let s ← match s.writeUnit { file := "T.java", package := some "p", types := [.mk ⟨12⟩ []] } with
      | .ok s => pure s
      | .error _ => throw "render"
    let unit : Outline.SourceUnit :=
      { file := "E.java", package := some "p",
        types := [.mk ⟨13⟩ [.method ⟨1⟩ (some [.expr (.new ⟨12⟩ none [.lit "5" .int] none)])]] }
    match s.writeUnit unit with
    | .ok s => pure s
    | .error _ => throw "render"
  match setup with
  | .ok s => s.project
  | .error _ => default

/-- The problem reported at `new T(5)`. -/
def newTWithArgument : Problem := ⟨.undefinedConstructor, 54, 8, []⟩

/-- The change of `T()` into `T(int)`, the last proposal for `new T(5)`. -/
def widenT : SignatureChange :=
  { params := [.new Bindings.int "i"], label := "Change constructor 'T()' to 'T(int)'" }

theorem signatureProposal_fails_iff_no_declaration_for_T :
    ∃ f ∈ unresolvedProposals undeclaredConstructor ⟨"E.java"⟩ newTWithArgument,
      Operation.changeSignature ⟨0⟩ widenT ∈ f.ops ∧
      f.ops = [.changeSignature ⟨0⟩ widenT] ∧ ∃ t node,
        undeclaredConstructor.typeDeclaration (undeclaredConstructor.bindings.erase
          (undeclaredConstructor.bindings.method ⟨0⟩).declaring) = some (t, node) ∧
          f.file = t.file ∧ ∀ fmt,
            (f.change undeclaredConstructor fmt =
                .error (.noMethodDeclaration (undeclaredConstructor.bindings.method ⟨0⟩).name) ↔
              t.findDeclaration (.method (undeclaredConstructor.bindings.eraseMethod ⟨0⟩)) = none) := by
  have hlast : ((unresolvedProposals undeclaredConstructor ⟨"E.java"⟩ newTWithArgument).getLast?.map
      (·.ops)) = some [.changeSignature ⟨0⟩ widenT] := by
    decide +kernel
  obtain ⟨f, hf, hops⟩ := Option.map_eq_some_iff.1 hlast
  have hmem := List.mem_of_getLast? hf
  have hm : Operation.changeSignature ⟨0⟩ widenT ∈ f.ops := hops ▸ List.mem_singleton_self _
  exact ⟨f, hmem, hm, signatureProposal_fails_iff_no_declaration _ _ _ f hmem _ _ hm⟩

/-- **A signature change is proposed that cannot be written.** For `new T(5)`, with a
constructor `T()` that `T.java` does not write out, the proposals end with changing `T()` into
`T(int)`, and creating that change fails: there is no declaration of `T()` to change. -/
theorem unresolvedProposals_offers_unwritable_signature_change :
    ∃ f ∈ unresolvedProposals undeclaredConstructor ⟨"E.java"⟩ newTWithArgument,
      f.ops = [.changeSignature ⟨0⟩ widenT] ∧
        ∀ fmt, f.change undeclaredConstructor fmt = .error (.noMethodDeclaration "T") := by
  have hlast : ((unresolvedProposals undeclaredConstructor ⟨"E.java"⟩ newTWithArgument).getLast?.map
      fun f => (f.file, f.ops)) = some (⟨"T.java"⟩, [.changeSignature ⟨0⟩ widenT]) := by
    decide +kernel
  obtain ⟨f, hf, hfile⟩ := Option.map_eq_some_iff.1 hlast
  simp only [Prod.mk.injEq] at hfile
  obtain ⟨hfile, hops⟩ := hfile
  have ht : undeclaredConstructor.unit? f.file =
      some ((undeclaredConstructor.unit? ⟨"T.java"⟩).getD default) := by
    rw [hfile]
    have hsome : (undeclaredConstructor.unit? ⟨"T.java"⟩).isSome = true := by decide +kernel
    cases h : undeclaredConstructor.unit? ⟨"T.java"⟩ with
    | none => simp [h] at hsome
    | some t => rfl
  have hname : (undeclaredConstructor.bindings.method ⟨0⟩).name = "T" := by decide +kernel
  refine ⟨f, List.mem_of_getLast? hf, hops, fun fmt => ?_⟩
  rw [← hname]
  exact (Fix.change_fails_iff_no_declaration ht hops fmt).2 (by decide +kernel)

end QuickFix
