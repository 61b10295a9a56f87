import QuickFix.Proofs.IndependentQualifiers

/-!
# Static access through a qualifier that is not a call

A conversion to a static access replaces the qualifier of a static member by the name of the
member's type. It hoists the qualifier into a statement of its own only when the qualifier
itself is a method invocation or an instance creation. Any other qualifier is written over whole
by the type's name (`change_toStaticAccess_of_not_call`): the text before the qualifier, the
name, the text after it. A call inside such a qualifier, in parentheses or as the receiver of a
field access, is gone from the text, together with whatever it does.
-/

namespace QuickFix

theorem applyBackToFront_singleton (source : String) (e : TextEdit) :
    applyBackToFront source [e] = String.ofList (e.spliceInto source.toList) := by
  simp [applyBackToFront]

/-- **A qualifier that is not a call is written over whole.** On a well-formed unit, the fix that
converts to a static access a qualifier that is neither a method invocation nor an instance
creation, with no import to plan, is the one edit that writes the type's name over the
qualifier, and its text keeps nothing of the qualifier. -/
theorem change_toStaticAccess_of_not_call {p : Project} {file : FileId} {fmt : Format}
    {s : EditSession} (hs : EditSession.start p file fmt = .ok s) (hwf : s.tree.WellFormed)
    {q : NodeId} {d : TypeId} {acc : String} {k : StaticAccessKind} (hq : s.tree.contains q)
    (hcall : s.tree.kind q ≠ .methodInvocation ∧ s.tree.kind q ≠ .classInstanceCreation)
    (himp : (s.imports.addImport s.bindings d 0).2 = s.imports) (name : String) :
    ∃ c, (Fix.mk name file [.toStaticAccess q d acc k]).change p fmt = .ok c ∧
      c.edits = [⟨s.tree.file, s.tree.range q, (s.imports.addImport s.bindings d 0).1⟩] ∧
      c.apply s.tree.text = .ok (String.ofList
        (Text.takeBytes s.tree.text.toList (s.tree.range q).start ++
          (s.imports.addImport s.bindings d 0).1.toList ++
          Text.dropBytes s.tree.text.toList (s.tree.range q).stop)) := by
  obtain ⟨hch, hins, hraw, -, himp'⟩ := EditSession.start_fresh hs
  have hsolo : (Operation.toStaticAccess q d acc k).soloEdit s =
      some ⟨s.tree.file, s.tree.range q, (s.imports.addImport s.bindings d 0).1⟩ := by
    simp [Operation.soloEdit, hcall]
  have hqual : ∀ op ∈ [Operation.toStaticAccess q d acc k], op.IsQualifying s := by
    simp only [List.mem_singleton, forall_eq]
    exact ⟨q, _, rfl, hq, hsolo, himp⟩
  obtain ⟨c, hfin, hedits, happly⟩ := EditSession.finish_withQualifiers hch hwf hqual
    (List.pairwise_singleton _ _) hins hraw himp' name
  simp only [List.filterMap_cons, hsolo, List.filterMap_nil] at hedits happly
  refine ⟨c, ?_, List.perm_singleton.1 hedits, ?_⟩
  · rw [Fix.change_eq_finish_withQualifiers hs hwf hqual (List.pairwise_singleton _ _)]
    exact hfin
  · rw [happly, applyBackToFront_singleton]
    rfl

/-- The unit
```
package p;

public class E {
    static int MAX;
    E make() {
        return this;
    }
    int get() {
        return (make()).MAX;
    }
}
```
which reaches the static field `MAX` through the parenthesised call `(make())`. -/
@[irreducible] def callInParentheses : Project :=
  let setup : Except String Setup := do
    let s ← [.type .classType "E" "p" none none "E",
        .field "MAX" "E" "int" { isStatic := true } none "MAX",
        .method "make" "E" [] (some "E") {} false none "make",
        .method "get" "E" [] (some "int") {} false none "get"].foldlM Setup.declare {}
    let unit : Outline.SourceUnit :=
      { file := "E.java", package := some "p",
        types := [.mk ⟨12⟩ [.field ⟨0⟩ none, .method ⟨0⟩ (some [.ret (some (.thisRef none))]),
          .method ⟨1⟩ (some [.ret (some (.field (.paren (.call none
            { binding := some (.method ⟨0⟩) } [])) { binding := some (.var ⟨0⟩) }))])]] }
    match s.writeUnit unit with
    | .ok s => pure s
    | .error _ => throw "render"
  match setup with
  | .ok s => s.project
  | .error _ => default

/-- Asked to reach static members through their declaring type, with `(make()).MAX` reported as
a static field reached through an instance, the clean-up of `callInParentheses` converts the
qualifier `(make())`, and its text returns `E.MAX` without calling `make`. -/
theorem change_toStaticAccess_drops_call_in_parentheses :
    ∃ s, EditSession.start callInParentheses ⟨"E.java"⟩ default = .ok s ∧
      ∃ f, createCleanUp callInParentheses ⟨"E.java"⟩ [⟨.nonStaticAccessToStaticField, 122, 12, []⟩]
          { nonStaticToStatic := true } = some f ∧
        f.ops = [.toStaticAccess ⟨21⟩ ⟨12⟩ "E" .declaringType] ∧
        ∃ c, f.change callInParentheses default = .ok c ∧
          c.apply s.tree.text = .ok ("package p;\n\npublic class E \x7b\n    static int MAX;\n" ++
            "    E make() \x7b\n        return this;\n    \x7d\n    int get() \x7b\n" ++
            "        return E.MAX;\n    \x7d\n\x7d\n") := by
  have hunit : (callInParentheses.unit? ⟨"E.java"⟩).isSome = true := by decide +kernel
  have hs := EditSession.start_of_unit ((Option.eq_some_of_isSome hunit).trans
    (congrArg some (@Option.get_eq_getD _ default _ hunit))) default
  -- the clean-up's fix: one conversion, of the parenthesised call
  have hops : (createCleanUp callInParentheses ⟨"E.java"⟩ [⟨.nonStaticAccessToStaticField, 122, 12, []⟩]
      { nonStaticToStatic := true }).map (fun f => (f.file, f.ops)) =
      some (⟨"E.java"⟩, [.toStaticAccess ⟨21⟩ ⟨12⟩ "E" .declaringType]) := by decide +kernel
  obtain ⟨⟨fname, ffile, fops⟩, hf, hfops⟩ := Option.map_eq_some_iff.1 hops
  simp only [Prod.mk.injEq] at hfops
  obtain ⟨rfl, rfl⟩ := hfops
  obtain ⟨c, hc, -, happly⟩ := @change_toStaticAccess_of_not_call _ _ _ _ hs
    (SyntaxTree.wellFormed_of_checkShape (by decide +kernel)) ⟨21⟩ ⟨12⟩ "E" .declaringType
    (by decide +kernel) ⟨by decide +kernel, by decide +kernel⟩
    (ImportPlan.addImport_snd_eq_of_added (by decide +kernel)) fname
  exact ⟨_, hs, _, hf, rfl, c, hc, happly.trans (congrArg _ (by decide +kernel))⟩

end QuickFix
