import QuickFix.Proofs.ConflictingChanges
import QuickFix.Proofs.RedundantThis

/-!
# The types that qualifications and static accesses write

Two kinds of operation write a type's name into a unit: qualifying a static member with its
declaring class (`addStaticQualifier`), and replacing the expression through which a static
member is reached by a type (`toStaticAccess`). `Operation.TypeChecked` says what the fixes check
of that type: a qualifying class is not anonymous, and a type that replaces an expression can be
named from the unit and is the member's declaring type, not the expression's own type.

Main statement (`access_fixes_pass_type_checks`): every such operation of a clean-up passes these
checks, and so does every operation of the quick fix for an indirect access; of the quick fixes
for a static member reached through an instance, each is one conversion, and the conversion to
the declaring type passes them. The checks are all there is: a qualifying class is not checked
to be accessible, so a static method inherited from a package-private class of another package
is qualified by that class (`createCleanUp_qualifies_with_package_private_class`), and the
conversion to the instance's type checks neither.
-/

namespace QuickFix

/-- What the fixes check of the type an operation writes: a class that qualifies a static
member is not anonymous, and a type that replaces an expression can be named from the unit and
is not merely the expression's type. -/
def Operation.TypeChecked (b : Bindings) (t : SyntaxTree) : Operation → Prop
  | .addStaticQualifier _ d _ => b.isAnonymous d = false
  | .toStaticAccess _ d _ k => accessibleFromUnit b t d = true ∧ k ≠ .instanceType
  | _ => True

section Folds

variable {α σ : Type} (P : σ → Prop)

/-- A property that each step on an element of the list keeps holds after the fold. -/
theorem foldl_invariant_of_mem (f : σ → α → σ) :
    ∀ (l : List α), (∀ s, ∀ a ∈ l, P s → P (f s a)) → ∀ s, P s → P (l.foldl f s)
  | [], _, _, hs => hs
  | a :: l, hf, s, hs => foldl_invariant_of_mem f l (fun s' a' ha' => hf s' a' (.tail _ ha'))
      (f s a) (hf s a (.head _) hs)

end Folds

/-- Walking a tree keeps every property of the state that each visit keeps. -/
theorem SyntaxTree.walk_invariant {σ : Type} (t : SyntaxTree) {visit : σ → NodeId → σ × Bool}
    (P : σ → Prop) (hvisit : ∀ s n, P s → P (visit s n).1) (s : σ) (n : NodeId) (hs : P s) :
    P (t.walk visit s n) := by
  -- on the number of nodes after `n`: the walk goes down only to later nodes
  induction hk : t.nodes.size - n.idx using Nat.strongRecOn generalizing s n with
  | ind k ih =>
    rw [SyntaxTree.walk]
    have hv := hvisit s n hs
    generalize visit s n = r at hv ⊢
    obtain ⟨s', down⟩ := r
    dsimp only at hv ⊢
    split
    · exact hv
    · refine foldl_invariant P _ (fun s c hs => ?_) _ _ hv
      split
      · exact ih _ (by omega) s c.1 hs rfl
      · exact hs

/-! ### Proposals for a static member reached through an expression -/

section Proposals

variable {b : Bindings} {t : SyntaxTree} {p : Problem}

/-- **What `staticAccessOperations` proposes.** Each proposal replaces the qualifier by a type
and writes that type's name; a proposal of the instance's type is made only for a member reached
through an instance, and every other proposal goes through a type the unit can name. In
conservative mode the first proposal is always of the second kind. -/
theorem staticAccessOperations_spec (c : Bool) :
    (∀ op ∈ staticAccessOperations b t p c, ∃ q d k, op = .toStaticAccess q d (b.ty d).name k ∧
      (k = .instanceType → p.kind.isIndirectStaticAccess = false) ∧
      (k ≠ .instanceType → accessibleFromUnit b t d = true)) ∧
    (c = true → ∀ op, (staticAccessOperations b t p c).head? = some op → op.TypeChecked b t) := by
  unfold staticAccessOperations
  simp only [pure_bind]
  repeat' split
  all_goals refine ⟨fun op hop => ?_, fun hc op hop => ?_⟩
  all_goals simp only [Id.run_pure, List.mem_cons, List.not_mem_nil, or_false, List.head?_cons,
    List.head?_nil, List.cons_append, List.nil_append, reduceCtorEq, Option.some.injEq] at hop
  all_goals rcases hop with rfl | rfl
  -- in conservative mode a type that cannot be named ends the search before the instance's type
  all_goals first
    | exact absurd hc ‹¬c = true›
    | (show _ ∧ _; exact ⟨by assumption, fun h => by cases h⟩)
    | refine ⟨_, _, _, rfl, fun h => ?_, fun h => ?_⟩
  all_goals first
    | assumption
    | (cases h; done)
    | exact absurd rfl h
    | simpa using ‹(!p.kind.isIndirectStaticAccess) = true›

/-- The proposals for an indirect access all pass the checks. -/
theorem typeChecked_of_mem_staticAccessOperations_indirect (hk : p.kind.isIndirectStaticAccess = true)
    {c : Bool} {op : Operation} (hop : op ∈ staticAccessOperations b t p c) : op.TypeChecked b t := by
  obtain ⟨q, d, k, rfl, hinst, hacc⟩ := (staticAccessOperations_spec c).1 op hop
  have hk' : k ≠ .instanceType := fun h => by simp [hinst h] at hk
  exact ⟨hacc hk', hk'⟩

end Proposals

/-! ### The conversions a clean-up adds -/

section Resolve

variable {b : Bindings} {t : SyntaxTree} {nonStatic indirect : Bool}

/-- A step only drops operations from the list it is given. -/
theorem mem_of_mem_resolveStep_fst {r : List Operation × List Operation} {p : Problem}
    {op : Operation} (h : op ∈ (resolveStep b t nonStatic indirect r p).1) : op ∈ r.1 := by
  obtain ⟨ops, convs⟩ := r
  unfold resolveStep at h
  dsimp only at h
  repeat' split at h
  all_goals first | exact h | exact List.mem_of_mem_eraseIdx h

/-- The conversions of static accesses pass the checks, and keep those of the operations they
are added to. -/
theorem resolveStaticAccesses_typeChecked {problems : List Problem} {ops : List Operation}
    (hops : ∀ op ∈ ops, op.TypeChecked b t) :
    ∀ op ∈ resolveStaticAccesses b t problems nonStatic indirect ops, op.TypeChecked b t := by
  by_cases hboth : (nonStatic || indirect) = true
  · rw [resolveStaticAccesses_eq hboth]
    let Inv : List Operation × List Operation → Prop := fun r =>
      (∀ op ∈ r.1, op.TypeChecked b t) ∧ ∀ op ∈ r.2, op.TypeChecked b t
    -- a step adds the first proposal of a conservative search, which passes the checks
    have hstep : ∀ r p, Inv r → Inv (resolveStep b t nonStatic indirect r p) := by
      rintro r p ⟨h₁, h₂⟩
      refine ⟨fun op hop => h₁ op (mem_of_mem_resolveStep_fst hop), fun op hop => ?_⟩
      rcases @resolveStep_snd b t nonStatic indirect r p with h | ⟨conv, hconv, h⟩
      · exact h₂ op (h ▸ hop)
      · rcases List.mem_append.1 (h ▸ hop) with hop | hop
        · exact h₂ op hop
        · rw [List.mem_singleton.1 hop]
          exact (staticAccessOperations_spec true).2 rfl conv hconv
    have hinv := foldl_invariant Inv _ hstep problems (ops, []) ⟨hops, by simp⟩
    intro op hop
    rcases List.mem_append.1 hop with hop | hop
    · exact hinv.1 op hop
    · exact hinv.2 op (List.mem_mergeSort.1 hop)
  · have hnone : (!nonStatic && !indirect) = true := by
      cases nonStatic <;> cases indirect <;> simp_all
    simpa [resolveStaticAccesses, hnone] using hops

end Resolve

/-! ### Qualifications -/

namespace QualifySearch

/-- The search keeps its bindings and its tree, and every operation it has made passes the
checks. -/
structure Checked (b : Bindings) (t : SyntaxTree) (q : QualifySearch) : Prop where
  bindings_eq : q.bindings = b
  tree_eq : q.tree = t
  ops_checked : ∀ op ∈ q.ops, op.TypeChecked b t

variable {b : Bindings} {t : SyntaxTree} {q : QualifySearch}

theorem Checked.push (h : q.Checked b t) (n : NodeId) {op : Operation}
    (hop : op.TypeChecked b t) : (q.push n op).Checked b t := by
  unfold QualifySearch.push
  split
  · exact h
  · refine ⟨h.bindings_eq, h.tree_eq, fun o ho => ?_⟩
    rcases Array.mem_push.1 ho with ho | rfl
    · exact h.ops_checked o ho
    · exact hop

theorem Checked.withImports (h : q.Checked b t) (i : ImportPlan) :
    ({ q with imports := i } : QualifySearch).Checked b t :=
  ⟨h.bindings_eq, h.tree_eq, h.ops_checked⟩

/-- A field is qualified with its class only past the check that the class is not anonymous. -/
theorem Checked.handleVariable (h : q.Checked b t) (n : NodeId) (v : VarId) :
    (q.handleVariable n v).Checked b t := by
  have hb := h.bindings_eq
  subst hb
  unfold QualifySearch.handleVariable
  dsimp only
  repeat' split
  all_goals first
    | exact h
    | exact (h.withImports _).push _ trivial
    | exact h.withImports _
    | exact h.push _ (by simp_all [Operation.TypeChecked])

theorem Checked.handleMethod (h : q.Checked b t) (n : NodeId) (m : MethodId) :
    (q.handleMethod n m).Checked b t := by
  have hb := h.bindings_eq
  subst hb
  unfold QualifySearch.handleMethod
  dsimp only
  repeat' split
  all_goals first
    | exact h
    | exact (h.withImports _).push _ trivial
    | exact h.withImports _
    | exact h.push _ (by simp_all [Operation.TypeChecked])

theorem Checked.handleSimpleName (h : q.Checked b t) (n : NodeId) :
    (q.handleSimpleName n).Checked b t := by
  unfold QualifySearch.handleSimpleName
  dsimp only
  repeat' split
  all_goals first | exact h | exact h.handleVariable _ _

/-- The step of the walk: a visit keeps the checks. -/
theorem Checked.visit (h : q.Checked b t) (n : NodeId) : (q.visit n).1.Checked b t := by
  unfold QualifySearch.visit
  dsimp only
  repeat' split
  all_goals first | exact h | exact h.handleSimpleName _ | exact h.handleMethod _ _

end QualifySearch

/-- Every qualification a unit is given passes the checks. -/
theorem qualifyOperations_typeChecked (b : Bindings) (t : SyntaxTree) (o : CodeStyle) :
    ∀ op ∈ qualifyOperations b t o, op.TypeChecked b t := by
  unfold qualifyOperations
  dsimp only
  split
  · simp
  · intro op hop
    have hwalk := t.walk_invariant (QualifySearch.Checked b t) (fun q n h => h.visit n)
      { bindings := b, tree := t, options := o, imports := ImportPlan.ofTree t b } SyntaxTree.root
      ⟨rfl, rfl, by simp⟩
    exact hwalk.ops_checked op (Array.mem_toList_iff.1 hop)

/-- A removal of `this.` writes no type. -/
theorem ThisQualifierSearch.exists_removal_of_mem_collect (q : ThisQualifierSearch)
    {op : Operation} (h : op ∈ q.collect) : ∃ r, op = .removeThisQualifier r := by
  unfold ThisQualifierSearch.collect at h
  obtain ⟨n, -, hn⟩ := List.mem_filterMap.1 h
  split at hn
  · split at hn
    · exact ⟨_, ((q.fieldAccess_eq_some_iff n op).1 hn).1⟩
    · cases hn
  · split at hn
    · exact ⟨_, ((q.methodInvocation_eq_some_iff n op).1 hn).1⟩
    · cases hn
  · cases hn


/-! ### Fixes -/

/-- Every operation of a fix passes the checks against the fix's unit. -/
def Fix.TypeChecked (p : Project) (f : Fix) : Prop :=
  ∃ t, p.unit? f.file = some t ∧ ∀ op ∈ f.ops, op.TypeChecked p.bindings t

theorem Fix.eq_of_mk?_eq_some {name : String} {file : FileId} {ops : List Operation} {f : Fix}
    (h : Fix.mk? name file ops = some f) : f = ⟨name, file, ops⟩ := by
  unfold Fix.mk? at h
  split at h
  · cases h
  · cases h
    rfl

theorem createCleanUp_typeChecked {p : Project} {file : FileId} {problems : List Problem}
    {o : CodeStyle} {f : Fix} (h : createCleanUp p file problems o = some f) : f.TypeChecked p := by
  unfold createCleanUp at h
  cases ht : p.unit? file with
  | none => simp [ht] at h
  | some t =>
    simp only [ht] at h
    split at h
    · simp at h
    obtain rfl := Fix.eq_of_mk?_eq_some h
    refine ⟨t, ht, ?_⟩
    -- the qualifications, then the conversions of static accesses, then the removals of `this.`
    have hqual : ∀ op ∈ (if o.anyQualify = true then qualifyOperations p.bindings t o else []),
        op.TypeChecked p.bindings t := by
      split
      · exact qualifyOperations_typeChecked _ _ _
      · simp
    have hconv := @resolveStaticAccesses_typeChecked p.bindings t o.nonStaticToStatic
      o.indirectToDirect problems _ hqual
    intro op hop
    split at hop
    · rcases List.mem_append.1 hop with hop | hop
      · split at hop
        · exact hconv op hop
        · exact hqual op hop
      · obtain ⟨r, rfl⟩ := ThisQualifierSearch.exists_removal_of_mem_collect _ hop
        trivial
    · split at hop
      · exact hconv op hop
      · exact hqual op hop

/-- The quick fix for an unqualified field is one qualification with `this`. -/
theorem addFieldQualifierFix_ops {p : Project} {file : FileId} {pr : Problem} {f : Fix}
    (h : addFieldQualifierFix p file pr = some f) : ∃ n i q, f.ops = [.addThisQualifier n i q] := by
  unfold addFieldQualifierFix at h
  simp only at h
  -- past the checks, the fix is the one qualification of the field's name
  split at h
  · cases h
  obtain ⟨t, -, h⟩ := Option.bind_eq_some_iff.1 h
  obtain ⟨covering, -, h⟩ := Option.bind_eq_some_iff.1 h
  generalize (if (t.kind covering == .qualifiedName) = true then
    QualifySearch.leftmostQualifier t t.size covering else covering) = name at h
  split at h
  · cases h
  split at h
  · split at h
    · cases h
    obtain ⟨d, -, h⟩ := Option.bind_eq_some_iff.1 h
    obtain ⟨qual, -, h⟩ := Option.bind_eq_some_iff.1 h
    obtain rfl := Fix.eq_of_mk?_eq_some h
    exact ⟨_, _, _, rfl⟩
  · cases h

theorem cleanUpForProblems_typeChecked {p : Project} {file : FileId} {problems : List Problem}
    {addThis nonStatic indirect : Bool} {f : Fix}
    (h : cleanUpForProblems p file problems addThis nonStatic indirect = some f) :
    f.TypeChecked p := by
  unfold cleanUpForProblems at h
  simp only at h
  split at h
  · cases h
  obtain ⟨t, ht, h⟩ := Option.bind_eq_some_iff.1 h
  obtain rfl := Fix.eq_of_mk?_eq_some h
  refine ⟨t, ht, resolveStaticAccesses_typeChecked ?_⟩
  split
  · -- each qualification with `this` is kept once per node
    refine foldl_invariant_of_mem (fun acc : List Operation => ∀ op ∈ acc, op.TypeChecked p.bindings t)
      _ _ (fun acc op hop hacc => ?_) [] (by simp)
    obtain ⟨g, hg, hop⟩ := List.mem_flatMap.1 hop
    obtain ⟨pr, -, hg⟩ := List.mem_filterMap.1 hg
    obtain ⟨n, i, q, hops⟩ := addFieldQualifierFix_ops hg
    rw [hops, List.mem_singleton] at hop
    split
    · intro x hx
      rcases List.mem_append.1 hx with hx | hx
      · exact hacc x hx
      · rw [List.mem_singleton.1 hx, hop]
        trivial
    · exact hacc
  · simp

theorem indirectAccessFix_typeChecked {p : Project} {file : FileId} {pr : Problem} {f : Fix}
    (h : indirectAccessFix p file pr = some f) : f.TypeChecked p := by
  unfold indirectAccessFix at h
  simp only at h
  split at h
  · cases h
  next hk =>
  obtain ⟨t, ht, h⟩ := Option.bind_eq_some_iff.1 h
  obtain ⟨op, hop, h⟩ := Option.bind_eq_some_iff.1 h
  split at h
  · obtain rfl := Fix.eq_of_mk?_eq_some h
    refine ⟨t, ht, List.forall_mem_singleton.2 ?_⟩
    exact typeChecked_of_mem_staticAccessOperations_indirect (by simpa using hk)
      (List.mem_of_head? hop)
  · cases h

/-- Each quick fix for a static member reached through an instance is one of the proposals. -/
theorem nonStaticAccessFixes_ops {p : Project} {file : FileId} {pr : Problem} {f : Fix}
    (h : f ∈ nonStaticAccessFixes p file pr) :
    ∃ t, p.unit? file = some t ∧ ∃ op ∈ staticAccessOperations p.bindings t pr false, f.ops = [op] := by
  unfold nonStaticAccessFixes at h
  split at h
  · cases h
  split at h
  · cases h
  next t ht =>
  obtain ⟨op, hop, hf⟩ := List.mem_filterMap.1 h
  refine ⟨t, ht, op, hop, ?_⟩
  split at hf
  · rw [Fix.eq_of_mk?_eq_some hf]
  · cases hf

/-- **The fixes that write a type check it.** Every qualification with a declaring class and
every conversion to a static access that a clean-up makes passes the checks of
`Operation.TypeChecked`: the class is not anonymous, and the type the access goes through can be
named from the unit and is not the instance's own type. So do the operations of the quick fix
for an indirect access. Of the quick fixes for a static member reached through an instance, each
is one conversion, and a conversion that is not to the instance's type goes through a type the
unit can name. -/
theorem access_fixes_pass_type_checks (p : Project) (file : FileId) :
    (∀ problems o f, createCleanUp p file problems o = some f → f.TypeChecked p) ∧
    (∀ problems addThis nonStatic indirect f,
      cleanUpForProblems p file problems addThis nonStatic indirect = some f → f.TypeChecked p) ∧
    (∀ pr f, indirectAccessFix p file pr = some f → f.TypeChecked p) ∧
    (∀ pr, ∀ f ∈ nonStaticAccessFixes p file pr, ∃ t, p.unit? file = some t ∧
      ∃ q d k, f.ops = [.toStaticAccess q d (p.bindings.ty d).name k] ∧
        (k ≠ .instanceType → accessibleFromUnit p.bindings t d = true)) := by
  refine ⟨fun _ _ _ => createCleanUp_typeChecked, fun _ _ _ _ _ => cleanUpForProblems_typeChecked,
    fun _ _ => indirectAccessFix_typeChecked, fun pr f hf => ?_⟩
  obtain ⟨t, ht, op, hop, hops⟩ := nonStaticAccessFixes_ops hf
  obtain ⟨q, d, k, rfl, -, hacc⟩ := (staticAccessOperations_spec false).1 op hop
  exact ⟨t, ht, q, d, k, hops, hacc⟩

/-- The program
```
package p;

public class E extends Sub {
    void run() {
        create();
    }
}
```
with the single-type import of `q.Sub`, a public class that extends `Base`, a class of `q` that
is not public and declares `public static void create()`. -/
def inheritedFromPackagePrivate : Project :=
  let setup : Except String Setup := do
    let s ← [.type .classType "Base" "q" (some {}) none "Base",
        .type .classType "Sub" "q" none none "Sub", .extend "Sub" "Base",
        .type .classType "E" "p" none none "E", .extend "E" "Sub",
        .method "create" "Base" [] none { isPublic := true, isStatic := true } false none "create",
        .method "run" "E" [] none {} false none "run"].foldlM Setup.declare {}
    let unit : Outline.SourceUnit :=
      { file := "E.java", package := some "p", imports := [("q.Sub", false)],
        types := [.mk ⟨14⟩ [.method ⟨1⟩ (some
          [.expr (.call none { binding := some (.method ⟨0⟩) } [])])]] }
    match s.writeUnit unit with
    | .ok s => pure s
    | .error _ => throw "render"
  match setup with
  | .ok s => s.project
  | .error _ => default

theorem access_fixes_pass_type_checks_on_inherited_call :
    ∃ f, createCleanUp inheritedFromPackagePrivate ⟨"E.java"⟩ [] { qualifyStaticMethod := true } =
      some f ∧ f.TypeChecked inheritedFromPackagePrivate := by
  have hsome : (createCleanUp inheritedFromPackagePrivate ⟨"E.java"⟩ []
      { qualifyStaticMethod := true }).isSome = true := by
    decide +kernel
  obtain ⟨f, hf⟩ := Option.isSome_iff_exists.1 hsome
  exact ⟨f, hf, (access_fixes_pass_type_checks _ _).1 _ _ f hf⟩

/-- **A static method is qualified with a class the unit cannot name.** Asked to qualify
static methods, the clean-up of `inheritedFromPackagePrivate` qualifies `create()` with its
declaring class `q.Base`, which is not public and lies in another package. -/
theorem createCleanUp_qualifies_with_package_private_class :
    ∃ f, createCleanUp inheritedFromPackagePrivate ⟨"E.java"⟩ [] { qualifyStaticMethod := true } =
        some f ∧
      f.ops = [.addStaticQualifier ⟨14⟩ ⟨12⟩ true] ∧
      accessibleFromUnit inheritedFromPackagePrivate.bindings
        ((inheritedFromPackagePrivate.unit? ⟨"E.java"⟩).getD default) ⟨12⟩ = false := by
  have hops : (createCleanUp inheritedFromPackagePrivate ⟨"E.java"⟩ []
      { qualifyStaticMethod := true }).map (·.ops) = some [.addStaticQualifier ⟨14⟩ ⟨12⟩ true] := by
    decide +kernel
  obtain ⟨f, hf, hfops⟩ := Option.map_eq_some_iff.1 hops
  exact ⟨f, hf, hfops, by decide +kernel⟩

end QuickFix
