import QuickFix.Proofs.StaticAccessTypes
import QuickFix.Proofs.TreeShape

/-!
# The conversions a clean-up adds for static accesses

`resolveStaticAccesses` adds, for each wanted problem, the first conversion proposed for it,
once per qualifier, and drops a `this` qualification of that qualifier. The conversions come
last, sorted by `conversionBefore`: by where the qualifier ends, then by its start backwards,
then by its depth backwards.

`resolveStaticAccesses_conversions` collects what the step of each problem keeps
(`ResolveInv`): the conversions replace pairwise different qualifiers, and none of the kept
operations qualifies one of them with `this`. In a well-formed tree the order of the conversions
is the order in which evaluation completes their qualifiers (`conversionBefore_postOrder`): a
qualifier inside another comes first, and of two qualifiers apart the left one.
-/

namespace QuickFix

/-- The node that an `AddThisQualifier` qualifies. -/
def Operation.thisTarget? : Operation → Option NodeId
  | .addThisQualifier n .. => some n
  | _ => none

/-! ## The qualifications a clean-up starts from -/

/-- An operation that qualifies a name, with `this` or with the member's class. -/
def Operation.IsQualification : Operation → Prop
  | .addThisQualifier .. | .addStaticQualifier .. => True
  | _ => False

namespace QualifySearch

/-- The search qualifies names, each a node it targets, and targets a node once. -/
structure QualifiesOnce (q : QualifySearch) : Prop where
  qualification : ∀ op ∈ q.ops, op.IsQualification
  targets : q.ops.toList.map Operation.target? = q.targeted.reverse.map some
  nodup : q.targeted.Nodup

variable {q : QualifySearch}

theorem QualifiesOnce.push (h : q.QualifiesOnce) {n : NodeId} {op : Operation}
    (hop : op.IsQualification) (hn : op.target? = some n) : (q.push n op).QualifiesOnce := by
  unfold QualifySearch.push
  split
  · exact h
  · rename_i hnew
    refine ⟨fun o ho => ?_, ?_, List.nodup_cons.2 ⟨by simpa using hnew, h.nodup⟩⟩
    · rcases Array.mem_push.1 ho with ho | rfl
      · exact h.qualification o ho
      · exact hop
    · simp [h.targets, hn]

theorem QualifiesOnce.withImports (h : q.QualifiesOnce) (i : ImportPlan) :
    ({ q with imports := i } : QualifySearch).QualifiesOnce :=
  ⟨h.qualification, h.targets, h.nodup⟩

theorem QualifiesOnce.handleVariable (h : q.QualifiesOnce) (n : NodeId) (v : VarId) :
    (q.handleVariable n v).QualifiesOnce := by
  unfold QualifySearch.handleVariable
  dsimp only
  repeat' split
  all_goals first
    | exact h
    | exact (h.withImports _).push trivial rfl
    | exact h.withImports _

theorem QualifiesOnce.handleMethod (h : q.QualifiesOnce) (n : NodeId) (m : MethodId) :
    (q.handleMethod n m).QualifiesOnce := by
  unfold QualifySearch.handleMethod
  dsimp only
  repeat' split
  all_goals first
    | exact h
    | exact (h.withImports _).push trivial rfl
    | exact h.withImports _

theorem QualifiesOnce.handleSimpleName (h : q.QualifiesOnce) (n : NodeId) :
    (q.handleSimpleName n).QualifiesOnce := by
  unfold QualifySearch.handleSimpleName
  dsimp only
  repeat' split
  all_goals first | exact h | exact h.handleVariable _ _

theorem QualifiesOnce.visit (h : q.QualifiesOnce) (n : NodeId) : (q.visit n).1.QualifiesOnce := by
  unfold QualifySearch.visit
  dsimp only
  repeat' split
  all_goals first | exact h | exact h.handleSimpleName _ | exact h.handleMethod _ _

end QualifySearch

/-- The qualifications a unit is given qualify pairwise different names. -/
theorem qualifyOperations_qualifiesOnce (b : Bindings) (t : SyntaxTree) (o : CodeStyle) :
    (∀ op ∈ qualifyOperations b t o, op.IsQualification) ∧
      ((qualifyOperations b t o).map Operation.target?).Nodup := by
  unfold qualifyOperations
  dsimp only
  split
  · simp
  · have hwalk := t.walk_invariant QualifySearch.QualifiesOnce (fun q n h => h.visit n)
      { bindings := b, tree := t, options := o, imports := ImportPlan.ofTree t b } SyntaxTree.root
      ⟨by simp, by simp, List.nodup_nil⟩
    refine ⟨fun op hop => hwalk.qualification op (Array.mem_toList_iff.1 hop), ?_⟩
    rw [hwalk.targets]
    exact (List.nodup_reverse.2 hwalk.nodup).map fun _ _ h => Option.some.inj h

/-- The `this` qualification of a node changes that node. -/
theorem Operation.target?_of_thisTarget? {op : Operation} {n : NodeId}
    (h : op.thisTarget? = some n) : op.target? = some n := by
  cases op <;> simp_all [Operation.thisTarget?, Operation.target?]

/-- Operations that change pairwise different nodes qualify no node with `this` twice. -/
theorem nodup_filterMap_thisTarget? {ops : List Operation} (h : (ops.map Operation.target?).Nodup) :
    (ops.filterMap Operation.thisTarget?).Nodup := by
  induction ops with
  | nil => exact List.nodup_nil
  | cons op ops ih =>
    rw [List.map_cons, List.nodup_cons] at h
    rw [List.filterMap_cons]
    cases hop : op.thisTarget? with
    | none => exact ih h.2
    | some n =>
      refine List.nodup_cons.2 ⟨fun hn => h.1 ?_, ih h.2⟩
      obtain ⟨op', hop', hn'⟩ := List.mem_filterMap.1 hn
      rw [Operation.target?_of_thisTarget? hop, ← Operation.target?_of_thisTarget? hn']
      exact List.mem_map_of_mem hop'

/-! ## The order of the conversions -/

section Order

variable (t : SyntaxTree)

/-- The node a conversion is ordered by. -/
def conversionNode (op : Operation) : NodeId := op.target?.getD SyntaxTree.root

theorem conversionBefore_iff (a c : Operation) :
    conversionBefore t a c = true ↔
      (t.range (conversionNode a)).stop < (t.range (conversionNode c)).stop ∨
      ((t.range (conversionNode a)).stop = (t.range (conversionNode c)).stop ∧
        ((t.range (conversionNode c)).start < (t.range (conversionNode a)).start ∨
          ((t.range (conversionNode a)).start = (t.range (conversionNode c)).start ∧
            t.depth (conversionNode c) ≤ t.depth (conversionNode a)))) := by
  simp only [conversionBefore, conversionNode, Bool.or_eq_true, decide_eq_true_eq,
    Bool.and_eq_true, beq_iff_eq, gt_iff_lt, ge_iff_le]

theorem conversionBefore_total (a c : Operation) :
    (conversionBefore t a c || conversionBefore t c a) = true := by
  rw [Bool.or_eq_true, conversionBefore_iff, conversionBefore_iff]
  omega

theorem conversionBefore_trans {a c e : Operation} (hac : conversionBefore t a c = true)
    (hce : conversionBefore t c e = true) : conversionBefore t a e = true := by
  rw [conversionBefore_iff] at hac hce ⊢
  omega

end Order

namespace SyntaxTree.WellFormed

variable {t : SyntaxTree} (h : t.WellFormed)
include h

/-- A node lies deeper than each of its ancestors. -/
theorem depth_lt_of_mem_ancestors {n a : NodeId} (hn : t.contains n) (ha : a ∈ t.ancestors n) :
    t.depth a < t.depth n := by
  induction hk : n.idx using Nat.strong_induction_on generalizing n with
  | _ k ih =>
    have hr : n ≠ root := by
      rintro rfl
      rw [ancestors, h.parent_root] at ha
      cases ha
    obtain ⟨p, hp, -, -, hanc⟩ := h.ancestors_eq hn hr
    obtain ⟨p', hp', hlt⟩ := h.parent_lt n hn hr
    rw [hp, Option.some.injEq] at hp'
    subst hp'
    have hpc : t.contains p := by
      simp only [contains, decide_eq_true_eq] at hn ⊢
      omega
    have hdepth : t.depth n = t.depth p + 1 := by simp [depth, hanc]
    rw [hanc, List.mem_cons] at ha
    rcases ha with rfl | ha
    · omega
    · have := ih p.idx (hk ▸ hlt) hpc ha rfl
      omega

end SyntaxTree.WellFormed

/-- Evaluation of `x` completes before that of `y`: `x` is not around `y`, and `y` is around `x`
or begins after `x` ends. -/
def SyntaxTree.CompletesBefore (t : SyntaxTree) (x y : NodeId) : Prop :=
  x ∉ t.ancestors y ∧ (y ∈ t.ancestors x ∨ (t.range x).stop < (t.range y).start)

/-- **Conversions in post-order.** In a well-formed tree, the qualifier of a conversion ordered
before another's completes before it. -/
theorem conversionBefore_postOrder {t : SyntaxTree} (h : t.WellFormed) {x y : Operation}
    (hx : t.contains (conversionNode x)) (hy : t.contains (conversionNode y))
    (hne : conversionNode x ≠ conversionNode y) (hxy : conversionBefore t x y = true) :
    t.CompletesBefore (conversionNode x) (conversionNode y) := by
  rw [conversionBefore_iff] at hxy
  unfold SyntaxTree.CompletesBefore
  generalize conversionNode x = a at hx hne hxy ⊢
  generalize conversionNode y = c at hy hne hxy ⊢
  have hsa := h.start_le_stop a
  have hsc := h.start_le_stop c
  -- an ancestor of `c` covers it and lies less deep, so it would come after `c`
  have hnot : a ∉ t.ancestors c := by
    intro hac
    have hcov := h.covers_of_mem_subtree (h.mem_subtree_of_mem_ancestors hy hac)
    have hdepth := h.depth_lt_of_mem_ancestors hy hac
    omega
  refine ⟨hnot, ?_⟩
  by_cases hca : c ∈ t.ancestors a
  · exact .inl hca
  · -- apart in the tree, so apart in the text, and `a` does not end after `c`
    have hac : a ∉ t.subtree c := fun hm => by
      rcases (h.mem_subtree_iff hx).1 hm with rfl | hm
      · exact hne rfl
      · exact hca hm
    have hca' : c ∉ t.subtree a := fun hm => by
      rcases (h.mem_subtree_iff hy).1 hm with rfl | hm
      · exact hne rfl
      · exact hnot hm
    rcases h.separated hx hy hac hca' with hlt | hlt
    · exact .inr hlt
    · omega

/-! ## What each problem's step keeps -/

/-- A node that has an enclosing statement is part of the tree: outside it, the walk up starts
from a default node, which is no statement and has no parent. -/
theorem SyntaxTree.contains_of_enclosingStatement {t : SyntaxTree} {n s : NodeId}
    (h : t.enclosingStatement n = some s) : t.contains n := by
  by_contra hc
  have hnode : t.node n = default := by
    simp only [SyntaxTree.contains, decide_eq_true_eq, not_lt] at hc
    simp [SyntaxTree.node, hc]
  have hanc : t.ancestors n = [] := by
    rw [SyntaxTree.ancestors, SyntaxTree.parent, hnode]
    rfl
  have hk : (default : Node).kind.isStatement = false := by decide
  simp [SyntaxTree.enclosingStatement, SyntaxTree.enclosingStatement.go, hanc, SyntaxTree.kind,
    hnode, hk] at h

/-- A conservative proposal for a static access replaces a qualifier that lies in a statement. -/
theorem staticAccessOperations_qualifier {b : Bindings} {t : SyntaxTree}
    {p : Problem} {op : Operation} (hop : op ∈ staticAccessOperations b t p true) :
    ∃ q d a k, op = .toStaticAccess q d a k ∧ t.enclosingStatement q ≠ none := by
  unfold staticAccessOperations at hop
  simp only [pure_bind] at hop
  -- each branch proposes nothing, or one or two conversions of the checked qualifier
  repeat' split at hop
  all_goals simp only [Id.run_pure, List.mem_cons, List.mem_append, List.not_mem_nil, or_false,
    false_or] at hop
  all_goals rcases hop with rfl | rfl
  all_goals exact ⟨_, _, _, _, rfl,
    by simpa using ‹¬(true && (t.enclosingStatement _).isNone) = true›⟩

/-- The operation qualifies none of the nodes with `this`. -/
def Operation.qualifiesNoneWithThis (qs : List NodeId) (op : Operation) : Bool :=
  op.thisTarget?.all (· ∉ qs)

theorem Operation.qualifiesNoneWithThis_nil (op : Operation) : op.qualifiesNoneWithThis [] = true := by
  simp [Operation.qualifiesNoneWithThis]

theorem Operation.qualifiesNoneWithThis_append (qs : List NodeId) (q : NodeId) (op : Operation) :
    op.qualifiesNoneWithThis (qs ++ [q]) =
      (op.qualifiesNoneWithThis qs && op.thisTarget? != some q) := by
  unfold Operation.qualifiesNoneWithThis
  cases op.thisTarget? with
  | none => rfl
  | some n => by_cases hn : n = q <;> simp [hn]

/-- What the steps of `resolveStaticAccesses` keep: the kept operations are the given ones
without the `this` qualifications of converted qualifiers, and the conversions replace pairwise
different qualifiers inside statements by types. -/
structure ResolveInv (t : SyntaxTree) (ops : List Operation) (r : List Operation × List Operation) :
    Prop where
  kept : r.1 = ops.filter (Operation.qualifiesNoneWithThis (r.2.map conversionNode))
  conversion : ∀ c ∈ r.2, ∃ q d a k, c = .toStaticAccess q d a k ∧ t.enclosingStatement q ≠ none
  nodup : (r.2.map conversionNode).Nodup

section Resolve

variable {b : Bindings} {t : SyntaxTree} {nonStatic indirect : Bool}

/-- Dropping the first `this` qualification of a node. -/
def dropThis (q : NodeId) (ops : List Operation) : List Operation :=
  match ops.findIdx? fun op => op.thisTarget? == some q with
  | some i => ops.eraseIdx i
  | none => ops

theorem dropThis_eq_eraseP (q : NodeId) (ops : List Operation) :
    dropThis q ops = ops.eraseP fun op => op.thisTarget? == some q := by
  rw [dropThis, List.eraseP_eq_eraseIdx]
  cases ops.findIdx? _ <;> rfl

/-- When no node is qualified with `this` twice, dropping the first `this` qualification of a
node drops all of them. -/
theorem dropThis_eq_filter (q : NodeId) {ops : List Operation}
    (hops : (ops.filterMap Operation.thisTarget?).Nodup) :
    dropThis q ops = ops.filter fun op => op.thisTarget? != some q := by
  rw [dropThis_eq_eraseP]
  induction ops with
  | nil => rfl
  | cons x ops ih =>
    by_cases hx : x.thisTarget? = some q
    · -- `q` is not qualified with `this` again further on
      rw [List.filterMap_cons, hx, List.nodup_cons] at hops
      have hrest : ∀ op ∈ ops, op.thisTarget? ≠ some q := fun op hop hq =>
        hops.1 (List.mem_filterMap.2 ⟨op, hop, hq⟩)
      rw [List.eraseP_cons_of_pos (by simp [hx]), List.filter_cons_of_neg (by simp [hx]),
        List.filter_eq_self.2 (by simpa using hrest)]
    · have hops' : (ops.filterMap Operation.thisTarget?).Nodup :=
        hops.sublist ((List.sublist_cons_self x ops).filterMap _)
      rw [List.eraseP_cons_of_neg (by simp [hx]), List.filter_cons_of_pos (by simp [hx]), ih hops']

/-- What one problem's step does: nothing, or add a conversion of a qualifier not converted yet
and drop the first `this` qualification of that qualifier. -/
theorem resolveStep_cases (r : List Operation × List Operation) (p : Problem) :
    resolveStep b t nonStatic indirect r p = r ∨
      ∃ conv q, (staticAccessOperations b t p true).head? = some conv ∧ conv.target? = some q ∧
        (∀ c ∈ r.2, c.target? ≠ some q) ∧
        resolveStep b t nonStatic indirect r p = (dropThis q r.1, r.2 ++ [conv]) := by
  obtain ⟨ops, convs⟩ := r
  unfold resolveStep
  dsimp only
  split
  · exact .inl rfl
  split
  · exact .inl rfl
  next conv hconv =>
  split
  · exact .inl rfl
  next q hq =>
  split
  · exact .inl rfl
  next hany =>
  refine .inr ⟨conv, q, hconv, hq, fun c hc hcq => hany (List.any_eq_true.2 ⟨c, hc, by simp [hcq]⟩),
    ?_⟩
  -- the `this` qualification of `q` is the one `dropThis` looks for
  simp only [dropThis]
  congr 3
  funext op
  cases op <;> simp [Operation.thisTarget?]

variable {ops : List Operation} (hops : (ops.filterMap Operation.thisTarget?).Nodup)
include hops

theorem ResolveInv.step {r : List Operation × List Operation} (h : ResolveInv t ops r)
    (p : Problem) : ResolveInv t ops (resolveStep b t nonStatic indirect r p) := by
  rcases resolveStep_cases r p with hr | ⟨conv, q, hconv, hq, hnew, hr⟩
  · rwa [hr]
  obtain ⟨q', d, a, k, rfl, hstmt⟩ := staticAccessOperations_qualifier (List.mem_of_head? hconv)
  have hq' : q' = q := by simpa [Operation.target?] using hq
  subst hq'
  -- the new qualifier is none of those converted before
  have hnotin : q' ∉ r.2.map conversionNode := by
    rintro hmem
    obtain ⟨c, hc, hcq⟩ := List.mem_map.1 hmem
    obtain ⟨q'', _, _, _, rfl, -⟩ := h.conversion c hc
    exact hnew _ hc (by simpa [conversionNode, Operation.target?] using hcq)
  have hkept : (r.1.filterMap Operation.thisTarget?).Nodup := by
    rw [h.kept]
    exact hops.sublist (List.filter_sublist.filterMap _)
  rw [hr]
  refine ⟨?_, ?_, ?_⟩
  · dsimp only
    rw [dropThis_eq_filter q' hkept, h.kept, List.filter_filter, List.map_append]
    refine List.filter_congr fun op _ => ?_
    simp [Operation.qualifiesNoneWithThis_append, conversionNode, Operation.target?, Bool.and_comm]
  · intro c hc
    rcases List.mem_append.1 hc with hc | hc
    · exact h.conversion c hc
    · rw [List.mem_singleton.1 hc]
      exact ⟨q', d, a, k, rfl, hstmt⟩
  · rw [List.map_append, List.nodup_append]
    refine ⟨h.nodup, List.nodup_singleton _, ?_⟩
    intro x hx y hy hxy
    have hy' : y = q' := by simpa [conversionNode, Operation.target?] using hy
    subst hxy hy'
    exact hnotin hx

theorem ResolveInv.run (problems : List Problem) :
    ResolveInv t ops (problems.foldl (resolveStep b t nonStatic indirect) (ops, [])) :=
  foldl_invariant (ResolveInv t ops) _ (fun _ p h => h.step hops p) problems (ops, [])
    ⟨(List.filter_eq_self.2 fun op _ => Operation.qualifiesNoneWithThis_nil op).symm, by simp,
      by simp⟩

/-- **The conversions of a clean-up.** In a well-formed tree, when no node is qualified with
`this` twice among the given operations, `resolveStaticAccesses` keeps the given operations
except the `this` qualifications of the qualifiers it converts, and appends conversions that
replace pairwise different qualifiers inside statements by types, each qualifier completing
before the next: one nested in another comes first, and of two apart the left one. -/
theorem resolveStaticAccesses_postOrder (h : t.WellFormed) (hflag : (nonStatic || indirect) = true)
    (problems : List Problem) :
    ∃ kept convs, resolveStaticAccesses b t problems nonStatic indirect ops = kept ++ convs ∧
      kept = ops.filter (Operation.qualifiesNoneWithThis (convs.map conversionNode)) ∧
      (∀ c ∈ convs, ∃ q d a k, c = .toStaticAccess q d a k ∧ t.enclosingStatement q ≠ none) ∧
      (convs.map conversionNode).Nodup ∧
      (convs.map conversionNode).Pairwise t.CompletesBefore ∧
      ∀ op ∈ kept, ∀ q ∈ convs.map conversionNode, op.thisTarget? ≠ some q := by
  have hinv := @ResolveInv.run b t nonStatic indirect ops hops problems
  rw [resolveStaticAccesses_eq hflag ops]
  generalize problems.foldl (resolveStep b t nonStatic indirect) (ops, []) = r at hinv ⊢
  obtain ⟨kept, found⟩ := r
  -- the conversions are those found, sorted by `conversionBefore`
  have hsorted := @List.pairwise_mergeSort Operation (conversionBefore t)
    (fun _ _ _ => conversionBefore_trans t) (conversionBefore_total t) found
  have hfound := List.mergeSort_perm found (conversionBefore t)
  generalize found.mergeSort (conversionBefore t) = convs at hsorted hfound ⊢
  have hperm := hfound.map conversionNode
  have hkept : kept = ops.filter (Operation.qualifiesNoneWithThis (convs.map conversionNode)) := by
    refine hinv.kept.trans (List.filter_congr fun op _ => ?_)
    simp only [Operation.qualifiesNoneWithThis, hperm.mem_iff]
  have hconv : ∀ c ∈ convs, ∃ q d a k, c = .toStaticAccess q d a k ∧ t.enclosingStatement q ≠ none :=
    fun c hc => hinv.conversion c (hfound.mem_iff.1 hc)
  refine ⟨kept, convs, rfl, hkept, hconv, hperm.nodup_iff.2 hinv.nodup, ?_, ?_⟩
  · -- on different qualifiers, `conversionBefore` is completion order
    have hne : convs.Pairwise fun x y => conversionNode x ≠ conversionNode y :=
      List.pairwise_map.1 (hperm.nodup_iff.2 hinv.nodup)
    rw [List.pairwise_map]
    refine (hsorted.and hne).imp_of_mem fun hx hy hxy => ?_
    have hcontains : ∀ c ∈ convs, t.contains (conversionNode c) := fun c hc => by
      obtain ⟨q, d, a, k, rfl, hq⟩ := hconv c hc
      obtain ⟨st, hst⟩ := Option.ne_none_iff_exists'.1 hq
      exact SyntaxTree.contains_of_enclosingStatement hst
    exact conversionBefore_postOrder h (hcontains _ hx) (hcontains _ hy) hxy.2 hxy.1
  · -- the kept operations pass the filter
    intro op hop q hq hthis
    rw [hkept, List.mem_filter] at hop
    simp only [Operation.qualifiesNoneWithThis, hthis, Option.all_some, decide_eq_true_eq] at hop
    exact hop.2 hq

end Resolve

/-- **The operations of a clean-up.** On a well-formed unit, a clean-up is its qualifications,
less the `this` qualifications of the qualifiers it converts, then the conversions of static
accesses, in completion order of their pairwise different qualifiers, then the removals of
`this.`; no conversion's qualifier is left qualified with `this`. -/
theorem createCleanUp_ops {p : Project} {file : FileId} {problems : List Problem} {o : CodeStyle}
    {f : Fix} {t : SyntaxTree} (ht : p.unit? file = some t) (hwf : t.WellFormed)
    (h : createCleanUp p file problems o = some f) :
    ∃ kept convs removals, f.file = file ∧ f.ops = kept ++ convs ++ removals ∧
      kept = (if o.anyQualify then qualifyOperations p.bindings t o else []).filter
        (Operation.qualifiesNoneWithThis (convs.map conversionNode)) ∧
      (∀ op ∈ kept, op.IsQualification) ∧
      (∀ op ∈ kept, ∀ q ∈ convs.map conversionNode, op.thisTarget? ≠ some q) ∧
      (∀ c ∈ convs, ∃ q d a k, c = .toStaticAccess q d a k ∧ t.enclosingStatement q ≠ none) ∧
      (convs.map conversionNode).Nodup ∧
      (convs.map conversionNode).Pairwise t.CompletesBefore ∧
      ∀ op ∈ removals, ∃ r, op = .removeThisQualifier r := by
  unfold createCleanUp at h
  simp only [ht] at h
  split at h
  · simp at h
  obtain rfl := Fix.eq_of_mk?_eq_some h
  -- the qualifications change pairwise different names
  have hquals : (∀ op ∈ (if o.anyQualify then qualifyOperations p.bindings t o else []),
      op.IsQualification) ∧
      ((if o.anyQualify then qualifyOperations p.bindings t o else []).map
        Operation.target?).Nodup := by
    split
    · exact qualifyOperations_qualifiesOnce _ _ _
    · simp
  generalize (if o.anyQualify then qualifyOperations p.bindings t o else []) = quals at hquals ⊢
  have hthis := nodup_filterMap_thisTarget? hquals.2
  -- the conversions of static accesses, when some are asked for
  obtain ⟨kept, convs, hres, hkept, hconv, hnodup, hpost, hnot⟩ : ∃ kept convs,
      (if o.anyStaticAccess then
        resolveStaticAccesses p.bindings t problems o.nonStaticToStatic o.indirectToDirect quals
      else quals) = kept ++ convs ∧
      kept = quals.filter (Operation.qualifiesNoneWithThis (convs.map conversionNode)) ∧
      (∀ c ∈ convs, ∃ q d a k, c = .toStaticAccess q d a k ∧ t.enclosingStatement q ≠ none) ∧
      (convs.map conversionNode).Nodup ∧
      (convs.map conversionNode).Pairwise t.CompletesBefore ∧
      ∀ op ∈ kept, ∀ q ∈ convs.map conversionNode, op.thisTarget? ≠ some q := by
    split
    · exact resolveStaticAccesses_postOrder hthis hwf ‹_› problems
    · refine ⟨quals, [], by simp, ?_, by simp, List.nodup_nil, List.Pairwise.nil, by simp⟩
      exact (List.filter_eq_self.2 fun op _ => Operation.qualifiesNoneWithThis_nil op).symm
  have hqual : ∀ op ∈ kept, op.IsQualification := fun op hop =>
    hquals.1 op (List.mem_of_mem_filter (hkept ▸ hop))
  -- the removals of `this.`, when asked for, come last
  let search : ThisQualifierSearch :=
    { scope := ⟨p.bindings, t⟩, fields := o.removeFieldQualifier, methods := o.removeMethodQualifier }
  refine ⟨kept, convs, if o.anyRemove then search.collect else [], rfl, ?_, hkept, hqual, hnot,
    hconv, hnodup, hpost, ?_⟩
  · split <;> simp [hres, search]
  · split
    · exact fun op hop => ThisQualifierSearch.exists_removal_of_mem_collect _ hop
    · simp

end QuickFix
