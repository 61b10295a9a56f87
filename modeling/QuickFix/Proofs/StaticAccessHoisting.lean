import QuickFix.Proofs.StaticAccessOrder
import QuickFix.Proofs.SessionRendering

/-!
# Hoisting the calls a clean-up converts

A conversion to a static access whose qualifier is a method invocation or an instance creation
keeps the call: it hoists the qualifier, as an expression statement, before the statement it is
in, inserted into the statement's block or switch or else put into one block that wraps the
statement. `EditSession.hoistedBefore` reads what a session has hoisted before a statement, and
`Operation.hoisted` says what each operation hoists.

`Operation.hoistsMore_apply` is the step: an operation that succeeds hoists what `hoisted` says
and keeps every change other than a block (`EditSession.HoistsMore`). Carried along the
operations of a clean-up, with the order of its conversions (`createCleanUp_ops`), it gives
`createCleanUp_hoists_in_completion_order`: what is hoisted before each statement is the calls of
its conversions, in completion order, and each converted qualifier is replaced by the name that
the session's import plan gives its type when the conversion is applied.
-/

namespace List

variable {α β : Type} [DecidableEq α]

/-- Dropping the entries of one key leaves the lookup of another alone. -/
theorem lookup_filter_key_ne {l : List (α × β)} {a k : α} (h : a ≠ k) :
    (l.filter (·.1 != k)).lookup a = l.lookup a := by
  induction l with
  | nil => rfl
  | cons e l ih =>
    obtain ⟨k', v⟩ := e
    by_cases hk : k' = k
    · subst hk
      simp [List.lookup_cons, ih, beq_false_of_ne h]
    · simp [hk, List.lookup_cons, ih]

/-- Overwriting the entries of one key changes the lookup of that key only. -/
theorem lookup_map_update {l : List (α × β)} {k : α} {v : β} (a : α) :
    (l.map fun e => if e.1 = k then (k, v) else e).lookup a =
      if a = k then (l.lookup k).map fun _ => v else l.lookup a := by
  induction l with
  | nil => split <;> rfl
  | cons e l ih =>
    obtain ⟨k', w⟩ := e
    by_cases hk : k' = k
    · subst hk
      by_cases ha : a = k' <;> simp [List.lookup_cons, ha, ih, beq_false_of_ne]
    · by_cases ha : a = k' <;> by_cases hak : a = k <;> simp_all [List.lookup_cons, beq_false_of_ne]

/-- Appending an entry for a new key changes the lookup of that key only. -/
theorem lookup_append_singleton {l : List (α × β)} {k : α} {v : β} (hk : l.lookup k = none)
    (a : α) : (l ++ [(k, v)]).lookup a = if a = k then some v else l.lookup a := by
  rw [List.lookup_append]
  by_cases ha : a = k
  · subst ha
    simp [hk]
  · simp [ha, List.lookup_cons, beq_false_of_ne ha]

end List

namespace QuickFix

/-- A statement directly in a block or a switch, so that statements can be put before it. -/
def SyntaxTree.inStatementList (t : SyntaxTree) (stmt : NodeId) : Bool :=
  match t.parent stmt with
  | some p => t.kind p == .block || t.kind p == .switchStatement
  | none => false

/-- The change wraps its node in a block. -/
def NodeChange.isBlock : NodeChange → Bool
  | .wrapInBlock _ => true
  | _ => false

namespace EditSession

/-- The statements hoisted before a statement: inserted before it in its block or switch, or
else put first in the block that wraps it. -/
def hoistedBefore (s : EditSession) (stmt : NodeId) : List Template :=
  if s.tree.inStatementList stmt then ((s.insertsBefore.lookup stmt).getD []).map Prod.fst
  else match s.changeOf? stmt with
    | some (.wrapInBlock hs, _) => hs
    | _ => []

/-- `s'` is `s` with the statements `more` hoisted: the same unit and bindings, and every change
of a node other than a wrapping block kept. -/
structure HoistsMore (more : NodeId → List Template) (s s' : EditSession) : Prop where
  tree : s'.tree = s.tree
  bindings : s'.bindings = s.bindings
  hoisted : ∀ stmt, s'.hoistedBefore stmt = s.hoistedBefore stmt ++ more stmt
  keeps : ∀ n c g, c.isBlock = false → s.changeOf? n = some (c, g) →
    s'.changeOf? n = some (c, g)

variable {s s' s'' : EditSession}

theorem HoistsMore.trans {m₁ m₂ : NodeId → List Template} (h₁ : HoistsMore m₁ s s')
    (h₂ : HoistsMore m₂ s' s'') : HoistsMore (fun stmt => m₁ stmt ++ m₂ stmt) s s'' where
  tree := h₂.tree.trans h₁.tree
  bindings := h₂.bindings.trans h₁.bindings
  hoisted stmt := by rw [h₂.hoisted, h₁.hoisted, List.append_assoc]
  keeps n c g hc h := h₂.keeps n c g hc (h₁.keeps n c g hc h)

/-- A step that keeps the unit, the bindings, the changes and the insertions hoists nothing. -/
theorem HoistsMore.of_eq (ht : s'.tree = s.tree) (hb : s'.bindings = s.bindings)
    (hc : s'.changes = s.changes) (hi : s'.insertsBefore = s.insertsBefore) :
    HoistsMore (fun _ => []) s s' where
  tree := ht
  bindings := hb
  hoisted stmt := by simp [hoistedBefore, changeOf?, ht, hc, hi]
  keeps n c g _ h := by simpa [changeOf?, hc] using h

theorem HoistsMore.congr {m m' : NodeId → List Template} (h : HoistsMore m s s')
    (hm : ∀ stmt, m stmt = m' stmt) : HoistsMore m' s s' where
  tree := h.tree
  bindings := h.bindings
  hoisted stmt := hm stmt ▸ h.hoisted stmt
  keeps := h.keeps

theorem HoistsMore.refl (s : EditSession) : HoistsMore (fun _ => []) s s :=
  .of_eq rfl rfl rfl rfl

@[simp] theorem group_bindings : s.group.1.bindings = s.bindings := by
  unfold group; split <;> rfl

theorem hoistsMore_beginGroup (d : String) : HoistsMore (fun _ => []) s (s.beginGroup d) :=
  .of_eq rfl rfl rfl rfl

theorem hoistsMore_addImport (ty : TypeId) : HoistsMore (fun _ => []) s (s.addImport ty).2 := by
  refine .of_eq (by simp) ?_ (by simp) ?_ <;> unfold addImport <;> simp

theorem hoistsMore_insertText (o : Nat) (x : String) : HoistsMore (fun _ => []) s (s.insertText o x) := by
  refine .of_eq (by simp) ?_ (by simp) ?_ <;> unfold insertText <;> simp

/-- Recording a change other than a block hoists nothing, and keeps the other changes. -/
theorem hoistsMore_record {n : NodeId} {c : NodeChange} (h : s.record n c = .ok s')
    (hc : c.isBlock = false) : HoistsMore (fun _ => []) s s' := by
  rw [record_eq] at h
  split_ifs at h with hn hch
  cases h
  have hnone : s.changes.lookup n = none := by
    unfold isChanged changeOf? at hch
    cases hl : s.changes.lookup n
    · rfl
    · simp [hl] at hch
  refine ⟨by simp, by simp, fun stmt => ?_, fun m c' g _ hm => ?_⟩
  · -- only `n` gets a change, and it is no block
    simp only [hoistedBefore, changeOf?, group_tree, group_insertsBefore, List.append_nil,
      List.lookup_append_singleton hnone]
    split
    · rfl
    · split_ifs with hsn
      · subst hsn
        rw [hnone]
        split
        · rename_i hs _ heq
          cases heq
          cases hc
        · rfl
      · rfl
  · have hmn : m ≠ n := by
      rintro rfl
      simp [changeOf?, hnone] at hm
    simpa [changeOf?, List.lookup_append_singleton hnone, hmn] using hm

/-- Hoisting a statement before `stmt` adds it to what is hoisted before `stmt`, and keeps every
change other than a block. -/
theorem hoistsMore_extractBefore {stmt : NodeId} {tpl : Template}
    (h : s.extractBefore stmt tpl = .ok s') :
    HoistsMore (fun x => if x = stmt then [tpl] else []) s s' := by
  unfold extractBefore check at h
  by_cases hn : s.tree.contains stmt
  · simp only [hn, bind, Except.bind, pure, Except.pure] at h
    simp at h
    split_ifs at h with hlist
    · -- in a block or a switch: the statement joins the insertions before `stmt`
      have hin : s.tree.inStatementList stmt = true := hlist
      cases h
      refine ⟨rfl, rfl, fun x => ?_, fun m c g _ hm => by simpa [changeOf?] using hm⟩
      unfold hoistedBefore
      by_cases hx : x = stmt
      · subst hx
        simp [hin]
      · simp only [hx, if_false, List.append_nil, List.lookup_cons, beq_false_of_ne hx,
          List.lookup_filter_key_ne hx, changeOf?]
    · have hin : s.tree.inStatementList stmt = false := Bool.eq_false_iff.2 hlist
      split at h
      · -- a block already wraps `stmt`: the statement goes last into it
        rename_i hoisted g0 hcg
        cases h
        have hlook : s.changes.lookup stmt = some (.wrapInBlock hoisted, g0) := by
          simpa [changeOf?] using hcg
        refine ⟨rfl, rfl, fun x => ?_, fun m c g hc hm => ?_⟩
        · unfold hoistedBefore
          by_cases hx : x = stmt
          · subst hx
            simp [hin, changeOf?, List.lookup_map_update, hlook]
          · simp [hx, changeOf?, List.lookup_map_update]
        · have hm' : m ≠ stmt := by
            rintro rfl
            simp only [changeOf?, hlook, Option.some.injEq, Prod.mk.injEq] at hm
            rw [← hm.1] at hc
            cases hc
          simpa [changeOf?, List.lookup_map_update, hm'] using hm
      · simp [throw, throwThe, MonadExceptOf.throw] at h
      · -- a new block wraps `stmt`
        rename_i hnone
        cases h
        have hlook : s.changes.lookup stmt = none := by simpa [changeOf?] using hnone
        refine ⟨rfl, rfl, fun x => ?_, fun m c g hc hm => ?_⟩
        · unfold hoistedBefore
          by_cases hx : x = stmt
          · subst hx
            simp [hin, changeOf?, List.lookup_append_singleton hlook, hlook]
          · simp [hx, changeOf?, List.lookup_append_singleton hlook]
        · have hm' : m ≠ stmt := by
            rintro rfl
            simp [changeOf?, hlook] at hm
          simpa [changeOf?, List.lookup_append_singleton hlook, hm'] using hm
  · simp [hn, bind, Except.bind] at h

/-- Hoisting a statement plans no import and stays in the current group. -/
theorem plan_extractBefore {stmt : NodeId} {tpl : Template}
    (h : s.extractBefore stmt tpl = .ok s') : s'.imports = s.imports ∧ s'.group.2 = s.group.2 := by
  unfold extractBefore check at h
  by_cases hn : s.tree.contains stmt
  · simp only [hn, bind, Except.bind, pure, Except.pure] at h
    simp at h
    -- every branch writes into the session that `group` gives
    have hkeep : ∀ s₁ : EditSession, s₁.imports = s.imports → s₁.groups = s.group.1.groups →
        s₁.imports = s.imports ∧ s₁.group.2 = s.group.2 := by
      intro s₁ hi hg
      refine ⟨hi, ?_⟩
      unfold group at hg ⊢
      split_ifs at hg ⊢ <;> simp_all
    split_ifs at h
    · cases h
      exact hkeep _ rfl rfl
    · split at h
      · cases h
        exact hkeep _ rfl rfl
      · simp [throw, throwThe, MonadExceptOf.throw] at h
      · cases h
        exact hkeep _ rfl rfl
  · simp [hn, bind, Except.bind] at h

/-- A recorded change is the change of its node. -/
theorem changeOf?_record {n : NodeId} {c : NodeChange} (h : s.record n c = .ok s') :
    s'.changeOf? n = some (c, s.group.2) := by
  rw [record_eq] at h
  split_ifs at h with hn hch
  cases h
  have hnone : s.changes.lookup n = none := by
    unfold isChanged changeOf? at hch
    cases hl : s.changes.lookup n
    · rfl
    · simp [hl] at hch
  simp [changeOf?, List.lookup_append_singleton hnone]

/-- A fresh session has hoisted nothing. -/
theorem hoistedBefore_start {p : Project} {file : FileId} {fmt : Format}
    (hs : start p file fmt = .ok s) (stmt : NodeId) : s.hoistedBefore stmt = [] := by
  unfold start at hs
  split at hs
  · cases hs
    unfold hoistedBefore
    split <;> simp [changeOf?]
  · cases hs

end EditSession

/-- What an operation hoists before a statement: a conversion of a call or an instance creation
puts it, as an expression statement, before the statement it is in. -/
def Operation.hoisted (t : SyntaxTree) (stmt : NodeId) : Operation → List Template
  | .toStaticAccess q .. =>
    if (t.kind q == .methodInvocation || t.kind q == .classInstanceCreation) &&
        t.enclosingStatement q == some stmt then [.concat [.node q, .text ";"]]
    else []
  | _ => []

namespace Operation

open EditSession

/-- **What an operation hoists.** An operation that succeeds hoists what `hoisted` says, before
the statements of its unit, and keeps every change other than a block. -/
theorem hoistsMore_apply {op : Operation} {s s' : EditSession} (h : op.apply s = .ok s') :
    HoistsMore (fun stmt => op.hoisted s.tree stmt) s s' := by
  have hg : HoistsMore (fun _ => []) s (s.beginGroup op.description) := hoistsMore_beginGroup _
  unfold apply at h
  cases op with
  | addThisQualifier n _ q =>
    exact (hg.trans (hoistsMore_record h rfl)).congr fun _ => rfl
  | addStaticQualifier n declaring _ =>
    exact ((hg.trans (hoistsMore_addImport declaring)).trans
      (hoistsMore_record h rfl)).congr fun _ => rfl
  | removeThisQualifier target =>
    cases target with
    | field access =>
      obtain ⟨_, -, h⟩ := except_bind_eq_ok.1 h
      exact (hg.trans (hoistsMore_record h rfl)).congr fun _ => rfl
    | method inv =>
      obtain ⟨_, -, h⟩ := except_bind_eq_ok.1 h
      exact (hg.trans (hoistsMore_record h rfl)).congr fun _ => rfl
  | toStaticAccess q declaring _ _ =>
    dsimp only at h
    -- the qualifier is read from the unit: outside it the operation aborts
    split at h
    · next qn hqn =>
      simp only [beginGroup_tree, ← SyntaxTree.kind_of_get? hqn] at h
      split_ifs at h with hcall
      · split at h
        · -- a call or an instance creation in a statement goes before that statement
          rename_i stmt hstmt
          obtain ⟨s₁, h₁, h⟩ := except_bind_eq_ok.1 h
          refine (((hg.trans (hoistsMore_extractBefore h₁)).trans
            (hoistsMore_addImport declaring)).trans (hoistsMore_record h rfl)).congr fun x => ?_
          by_cases hx : x = stmt
          · simp [Operation.hoisted, hcall, hstmt, hx]
          · simp [Operation.hoisted, hcall, hstmt, hx, Ne.symm hx]
        · rename_i hstmt
          refine ((hg.trans (hoistsMore_addImport declaring)).trans
            (hoistsMore_record h rfl)).congr fun x => ?_
          simp [Operation.hoisted, hstmt]
      · refine ((hg.trans (hoistsMore_addImport declaring)).trans
          (hoistsMore_record h rfl)).congr fun x => ?_
        simp [Operation.hoisted, hcall]
    · cases h
  | createMember stub =>
    exact (MemberStub.apply_invariant (HoistsMore (fun _ => []) s)
      (fun _ ty h => (h.trans (hoistsMore_addImport ty)).congr fun _ => rfl)
      (fun _ o x h => (h.trans (hoistsMore_insertText o x)).congr fun _ => rfl) hg h).congr
      fun _ => rfl
  | changeArguments inv c =>
    dsimp only at h
    split at h
    · obtain ⟨_, -, h⟩ := except_bind_eq_ok.1 h
      obtain ⟨_, -, h⟩ := except_bind_eq_ok.1 h
      exact (hg.trans (hoistsMore_record h rfl)).congr fun _ => rfl
    · cases h
  | changeSignature m c =>
    dsimp only at h
    split at h
    · obtain ⟨⟨_, s₁⟩, hfold, h⟩ := except_bind_eq_ok.1 h
      obtain ⟨_, -, h⟩ := except_bind_eq_ok.1 h
      -- each parameter at most plans an import
      have h₁ : HoistsMore (fun _ => []) s s₁ := by
        refine foldlM_invariant (fun r : List Template × EditSession =>
          HoistsMore (fun _ => []) s r.2) _ ?_ _ _ _ hg hfold
        rintro ⟨acc, s₂⟩ slot r h₂ hr
        cases slot with
        | existing i =>
          obtain ⟨_, -, hr⟩ := except_bind_eq_ok.1 hr
          cases hr
          exact h₂
        | retyped i ty =>
          obtain ⟨_, -, hr⟩ := except_bind_eq_ok.1 hr
          obtain ⟨_, -, hr⟩ := except_bind_eq_ok.1 hr
          cases hr
          exact (h₂.trans (hoistsMore_addImport ty)).congr fun _ => rfl
        | new ty name =>
          cases hr
          exact (h₂.trans (hoistsMore_addImport ty)).congr fun _ => rfl
      exact (h₁.trans (hoistsMore_record h rfl)).congr fun _ => rfl
    · simp [throw, throwThe, MonadExceptOf.throw] at h

/-- **What operations hoist, in order.** Operations recorded one after another hoist before each
statement what each of them hoists, in their order. -/
theorem hoistsMore_foldlM_apply : ∀ {ops : List Operation} {s s' : EditSession},
    ops.foldlM (fun s op => op.apply s) s = .ok s' →
      HoistsMore (fun stmt => ops.flatMap (·.hoisted s.tree stmt)) s s'
  | [], s, s', h => by
    cases h
    exact (HoistsMore.refl s).congr fun _ => rfl
  | op :: ops, s, s', h => by
    rw [List.foldlM_cons] at h
    obtain ⟨s₁, h₁, h⟩ := except_bind_eq_ok.1 h
    have hstep := hoistsMore_apply h₁
    refine (hstep.trans (hoistsMore_foldlM_apply h)).congr fun stmt => ?_
    rw [hstep.tree, List.flatMap_cons]

/-- A conversion that succeeds replaces its qualifier by the name that the session's import plan
gives the type, in the conversion's own group. -/
theorem changeOf?_apply_toStaticAccess {s s' : EditSession} {q : NodeId} {d : TypeId} {a : String}
    {k : StaticAccessKind} (h : (Operation.toStaticAccess q d a k).apply s = .ok s') :
    ∃ g', s'.changeOf? q =
      some (.replace (.text (s.imports.addImport s.bindings d s.groups.length).1), g') := by
  -- the qualifier is replaced last, on the session after the hoisting, if any: the hoisting plans
  -- no import and begins no group
  have hlast : ∀ s₂ : EditSession, s₂.bindings = s.bindings → s₂.imports = s.imports →
      s₂.group.2 = s.groups.length →
      (s₂.addImport d).2.replace q (.text (s₂.addImport d).1) = .ok s' →
      ∃ g', s'.changeOf? q =
        some (.replace (.text (s.imports.addImport s.bindings d s.groups.length).1), g') := by
    intro s₂ hb hi hg hr
    refine ⟨(s₂.addImport d).2.group.2, (changeOf?_record hr).trans ?_⟩
    unfold addImport
    simp [hb, hi, hg]
  have hbegin : ∀ x, (s.beginGroup x).group.2 = s.groups.length := fun x => by
    simp [group, beginGroup]
  unfold apply at h
  dsimp only at h
  split at h
  · split_ifs at h
    · split at h
      · obtain ⟨s₁, h₁, h⟩ := except_bind_eq_ok.1 h
        obtain ⟨hi, hg⟩ := plan_extractBefore h₁
        exact hlast s₁ (hoistsMore_extractBefore h₁).bindings hi (hg.trans (hbegin _)) h
      · exact hlast (s.beginGroup _) rfl rfl (hbegin _) h
    · exact hlast (s.beginGroup _) rfl rfl (hbegin _) h
  · cases h

/-- Once operations that succeed have converted a qualifier, it stays replaced by the name that
the import plan of the session the conversion was applied to gives the type. -/
theorem changeOf?_foldlM_apply_toStaticAccess {ops : List Operation} {s s' : EditSession}
    (h : ops.foldlM (fun s op => op.apply s) s = .ok s') {q : NodeId} {d : TypeId} {a : String}
    {k : StaticAccessKind} (hmem : .toStaticAccess q d a k ∈ ops) :
    ∃ pre post s₁, ops = pre ++ .toStaticAccess q d a k :: post ∧
      pre.foldlM (fun s op => op.apply s) s = .ok s₁ ∧ ∃ g', s'.changeOf? q =
        some (.replace (.text (s₁.imports.addImport s.bindings d s₁.groups.length).1), g') := by
  obtain ⟨pre, post, rfl⟩ := List.append_of_mem hmem
  rw [List.foldlM_append] at h
  obtain ⟨s₁, h₁, h⟩ := except_bind_eq_ok.1 h
  rw [List.foldlM_cons] at h
  obtain ⟨s₂, h₂, h⟩ := except_bind_eq_ok.1 h
  obtain ⟨g', hq⟩ := changeOf?_apply_toStaticAccess h₂
  rw [(hoistsMore_foldlM_apply h₁).bindings] at hq
  exact ⟨pre, post, s₁, rfl, h₁, g', (hoistsMore_foldlM_apply h).keeps _ _ _ rfl hq⟩

theorem hoisted_eq_nil_of_isQualification {op : Operation} (h : op.IsQualification)
    (t : SyntaxTree) (stmt : NodeId) : op.hoisted t stmt = [] := by
  cases op <;> first | rfl | exact absurd h id

end Operation

/-- **Static accesses in a clean-up.** On a well-formed unit, a clean-up keeps its
qualifications but the `this` qualifications of the qualifiers it converts, and converts
pairwise different qualifiers, each inside a statement, in the order in which their evaluation
completes. When the fix is written, each statement has hoisted before it one expression
statement for each converted call or instance creation inside it, in that order (in its block or
switch, or else in the one block that wraps it), and each converted qualifier is replaced by the
name that the session's import plan, after the operations before the conversion, gives its
type. -/
theorem createCleanUp_hoists_in_completion_order {p : Project} {file : FileId}
    {problems : List Problem} {o : CodeStyle} {f : Fix} {t : SyntaxTree}
    (ht : p.unit? file = some t) (hwf : t.WellFormed) (h : createCleanUp p file problems o = some f) :
    ∃ kept convs removals, f.ops = kept ++ convs ++ removals ∧
      kept = (if o.anyQualify then qualifyOperations p.bindings t o else []).filter
        (Operation.qualifiesNoneWithThis (convs.map conversionNode)) ∧
      (∀ op ∈ kept, ∀ q ∈ convs.map conversionNode, op.thisTarget? ≠ some q) ∧
      (∀ c ∈ convs, ∃ q d a k, c = .toStaticAccess q d a k ∧ t.enclosingStatement q ≠ none) ∧
      (convs.map conversionNode).Nodup ∧
      (convs.map conversionNode).Pairwise t.CompletesBefore ∧
      (∀ op ∈ removals, ∃ r, op = .removeThisQualifier r) ∧
      ∀ fmt c, f.change p fmt = .ok c →
        ∃ s s', EditSession.start p file fmt = .ok s ∧
          f.ops.foldlM (fun s op => op.apply s) s = .ok s' ∧ s'.finish f.name = .ok c ∧
          (∀ stmt, s'.hoistedBefore stmt = convs.flatMap (Operation.hoisted t stmt)) ∧
          ∀ q d a k, .toStaticAccess q d a k ∈ convs →
            ∃ pre post s₁, f.ops = pre ++ .toStaticAccess q d a k :: post ∧
              pre.foldlM (fun s op => op.apply s) s = .ok s₁ ∧ ∃ g', s'.changeOf? q =
                some (.replace (.text (s₁.imports.addImport p.bindings d s₁.groups.length).1),
                  g') := by
  obtain ⟨kept, convs, removals, hfile, hops, hkept, hqual, hnot, hconv, hnodup, hpost, hrem⟩ :=
    createCleanUp_ops ht hwf h
  refine ⟨kept, convs, removals, hops, hkept, hnot, hconv, hnodup, hpost, hrem, fun fmt c hc => ?_⟩
  -- writing the fix: a fresh session on the unit, its operations, then the edits
  unfold Fix.change at hc
  rw [hfile] at hc
  obtain ⟨s, hs, hc⟩ := except_bind_eq_ok.1 hc
  obtain ⟨s', hrun, hfin⟩ := except_bind_eq_ok.1 hc
  have hstart : s.tree = t ∧ s.bindings = p.bindings := by
    unfold EditSession.start at hs
    rw [ht] at hs
    cases hs
    exact ⟨rfl, rfl⟩
  have hmore := Operation.hoistsMore_foldlM_apply hrun
  refine ⟨s, s', hs, hrun, hfin, fun stmt => ?_, fun q d a k hmem => ?_⟩
  · -- the qualifications and the removals hoist nothing
    have hk : kept.flatMap (·.hoisted t stmt) = [] := List.flatMap_eq_nil_iff.2 fun op hop =>
      Operation.hoisted_eq_nil_of_isQualification (hqual op hop) t stmt
    have hr : removals.flatMap (·.hoisted t stmt) = [] := List.flatMap_eq_nil_iff.2 fun op hop => by
      obtain ⟨r, rfl⟩ := hrem op hop
      rfl
    rw [hmore.hoisted, EditSession.hoistedBefore_start hs, hstart.1, hops, List.nil_append,
      List.flatMap_append, List.flatMap_append, hk, hr, List.nil_append, List.append_nil]
  · have hq := Operation.changeOf?_foldlM_apply_toStaticAccess hrun
      (hops ▸ List.mem_append_left _ (List.mem_append_right _ hmem))
    rwa [hstart.2] at hq

/-- The program
```
package p;
public class E {
    static int MAX;
    E make() {
        return this;
    }
    void run() {
        .MAX = make().MAX;
    }
}
```
whose first `MAX` is qualified by an empty, unresolved name. -/
@[irreducible] def emptyQualifierAndCall : Project :=
  let setup : Except String Setup := do
    let s ← [.type .classType "E" "p" none none "E",
        .field "MAX" "E" "int" { isStatic := true } none "MAX",
        .method "make" "E" [] (some "E") {} false none "make",
        .method "run" "E" [] none {} false none "run"].foldlM Setup.declare {}
    let unit : Outline.SourceUnit :=
      { file := "E.java", package := some "p",
        types := [.mk ⟨12⟩ [.field ⟨0⟩ none,
          .method ⟨0⟩ (some [.ret (some (.thisRef none))]),
          .method ⟨1⟩ (some [.expr (.assign (.qualified (.name {}) { binding := some (.var ⟨0⟩) })
            (.field (.call none { binding := some (.method ⟨0⟩) } [])
              { binding := some (.var ⟨0⟩) }))])]] }
    match s.writeUnit unit with
    | .ok s => pure s
    | .error _ => throw "render"
  match setup with
  | .ok s => s.project
  | .error _ => default

/-- Both accesses to `MAX` in `emptyQualifierAndCall`, reported as a static field reached through
an expression. -/
def maxThroughExpressions : List Problem :=
  [⟨.nonStaticAccessToStaticField, 116, 4, []⟩, ⟨.nonStaticAccessToStaticField, 123, 10, []⟩]

/-- Reaching `MAX` through its class at both accesses converts the empty qualifier and the call
`make()`, in this order. -/
theorem createCleanUp_maxThroughExpressions :
    createCleanUp emptyQualifierAndCall ⟨"E.java"⟩ maxThroughExpressions
      { nonStaticToStatic := true } = some ⟨Messages.changeCodeStyle, ⟨"E.java"⟩,
        [.toStaticAccess ⟨22⟩ ⟨12⟩ "E" .declaringType, .toStaticAccess ⟨25⟩ ⟨12⟩ "E" .declaringType]⟩ := by
  have ht := eq_some_getD_of_isSome
    (show (emptyQualifierAndCall.unit? ⟨"E.java"⟩).isSome = true by decide +kernel)
  -- the conversions come sorted already
  have hres : resolveStaticAccesses emptyQualifierAndCall.bindings
      ((emptyQualifierAndCall.unit? ⟨"E.java"⟩).getD default) maxThroughExpressions true false [] =
      [.toStaticAccess ⟨22⟩ ⟨12⟩ "E" .declaringType, .toStaticAccess ⟨25⟩ ⟨12⟩ "E" .declaringType] := by
    rw [resolveStaticAccesses_eq rfl, List.mergeSort_of_pairwise (by decide +kernel)]
    decide +kernel
  unfold createCleanUp
  rw [ht]
  simp [hres, CodeStyle.any, CodeStyle.anyQualify, CodeStyle.anyRemove, CodeStyle.anyStaticAccess,
    Fix.mk?]

/-- In `emptyQualifierAndCall`, the empty qualifier completes before `make()`, and `make();` is
the one statement hoisted before the assignment. -/
theorem createCleanUp_hoists_make_before_assignment :
    ∃ t f, emptyQualifierAndCall.unit? ⟨"E.java"⟩ = some t ∧ t.WellFormed ∧
      createCleanUp emptyQualifierAndCall ⟨"E.java"⟩ maxThroughExpressions
        { nonStaticToStatic := true } = some f ∧
      t.CompletesBefore ⟨22⟩ ⟨25⟩ ∧
      ∀ fmt c, f.change emptyQualifierAndCall fmt = .ok c →
        ∃ s' : EditSession, s'.finish f.name = .ok c ∧
          s'.hoistedBefore ⟨19⟩ = [.concat [.node ⟨25⟩, .text ";"]] := by
  have ht := eq_some_getD_of_isSome
    (show (emptyQualifierAndCall.unit? ⟨"E.java"⟩).isSome = true by decide +kernel)
  -- the tree is well formed; the empty qualifier is a name, `make()` a call in the assignment's
  -- statement
  obtain ⟨hshape, hk22, hk25, hstmt⟩ :
      ((emptyQualifierAndCall.unit? ⟨"E.java"⟩).getD default).checkShape = true ∧
      ((emptyQualifierAndCall.unit? ⟨"E.java"⟩).getD default).kind ⟨22⟩ = .simpleName ∧
      ((emptyQualifierAndCall.unit? ⟨"E.java"⟩).getD default).kind ⟨25⟩ = .methodInvocation ∧
      ((emptyQualifierAndCall.unit? ⟨"E.java"⟩).getD default).enclosingStatement ⟨25⟩ =
        some ⟨19⟩ := by
    decide +kernel
  have hwf := SyntaxTree.wellFormed_of_checkShape hshape
  obtain ⟨kept, convs, removals, hops, hkept, -, -, -, hpost, hrem, hwrite⟩ :=
    createCleanUp_hoists_in_completion_order ht hwf createCleanUp_maxThroughExpressions
  -- no qualification and no removal is asked for: the two conversions are all the operations
  have hkept' : kept = [] := by simpa [CodeStyle.anyQualify] using hkept
  have hrem' : removals = [] := List.eq_nil_iff_forall_not_mem.2 fun op hop => by
    obtain ⟨r, rfl⟩ := hrem op hop
    have hmem := hops ▸ List.mem_append_right _ hop
    simp at hmem
  have hconvs : convs = [.toStaticAccess ⟨22⟩ ⟨12⟩ "E" .declaringType,
      .toStaticAccess ⟨25⟩ ⟨12⟩ "E" .declaringType] := by
    simpa [hkept', hrem'] using hops.symm
  subst hconvs
  refine ⟨_, _, ht, hwf, createCleanUp_maxThroughExpressions, ?_, fun fmt c hc => ?_⟩
  · simpa [conversionNode, Operation.target?] using hpost
  · obtain ⟨s, s', -, -, hfin, hhoist, -⟩ := hwrite fmt c hc
    refine ⟨s', hfin, ?_⟩
    rw [hhoist]
    simp [Operation.hoisted, hk22, hk25, hstmt]

/-- **The type's name goes before the hoisted call.** The clean-up of `emptyQualifierAndCall`
hoists `make();` before the assignment and writes `E` for the empty qualifier at the start of
that statement: two insertions at one offset, which the edits join in the order of their groups,
the conversion of the qualifier first. The unit written recursively from the same session puts
the hoisted statement first. -/
theorem createCleanUp_writes_type_before_hoisted_call :
    ∃ f s c, createCleanUp emptyQualifierAndCall ⟨"E.java"⟩ maxThroughExpressions
        { nonStaticToStatic := true } = some f ∧
      (EditSession.start emptyQualifierAndCall ⟨"E.java"⟩ default >>= fun s =>
        f.ops.foldlM (fun s op => op.apply s) s) = .ok s ∧
      s.finish f.name = .ok c ∧
      c.apply s.tree.text = .ok ("package p;\n\npublic class E \x7b\n    static int MAX;\n" ++
        "    E make() \x7b\n        return this;\n    \x7d\n    void run() \x7b\n" ++
        "        Emake();\n        .MAX = E.MAX;\n    \x7d\n\x7d\n") ∧
      s.rendered = .ok ("package p;\n\npublic class E \x7b\n    static int MAX;\n" ++
        "    E make() \x7b\n        return this;\n    \x7d\n    void run() \x7b\n" ++
        "        make();\n        E.MAX = E.MAX;\n    \x7d\n\x7d\n") := by
  have hs := Except.eq_ok_of_toBool default (x := EditSession.start emptyQualifierAndCall
    ⟨"E.java"⟩ default >>= fun s => [Operation.toStaticAccess ⟨22⟩ ⟨12⟩ "E" .declaringType,
      .toStaticAccess ⟨25⟩ ⟨12⟩ "E" .declaringType].foldlM (fun s op => op.apply s) s)
    (by decide +kernel)
  set s := (EditSession.start emptyQualifierAndCall ⟨"E.java"⟩ default >>= fun s =>
    [Operation.toStaticAccess ⟨22⟩ ⟨12⟩ "E" .declaringType,
      .toStaticAccess ⟨25⟩ ⟨12⟩ "E" .declaringType].foldlM (fun s op => op.apply s) s).toOption.getD
    default with hsdef
  -- the session is plain, on a well-formed tree whose root spans the text
  obtain ⟨hraw, hadded, hgroup, hhoist, hparent, hshape, hroot⟩ : s.rawInserts = [] ∧
      s.imports.added = [] ∧ (∀ e ∈ s.changes, e.2.2 < s.groupCount) ∧
      (∀ e ∈ s.insertsBefore, ∀ x ∈ e.2, x.2 < s.groupCount) ∧
      (∀ e ∈ s.insertsBefore, s.tree.parent e.1 ≠ none) ∧ s.tree.checkShape = true ∧
      s.tree.range SyntaxTree.root = ⟨0, Text.byteSize s.tree.text.toList⟩ := by
    rw [hsdef]; decide +kernel
  have hplain : s.Plain := ⟨hraw, hadded, hgroup, hhoist, hparent⟩
  have hwf : s.tree.WellFormed := SyntaxTree.wellFormed_of_checkShape hshape
  -- the walk meets the hoisted call first; the group of the empty qualifier comes first
  obtain ⟨pending, hp, hpe⟩ := Except.exists_of_map_eq_ok (x := s.collectNode s.fuel SyntaxTree.root)
    (f := fun l => (l.map s.toEdit, s.groupedEdits l))
    (b := ([⟨⟨"E.java"⟩, ⟨116, 116⟩, "make();\n        "⟩, ⟨⟨"E.java"⟩, ⟨116, 116⟩, "E"⟩,
        ⟨⟨"E.java"⟩, ⟨123, 129⟩, "E"⟩],
      [⟨⟨"E.java"⟩, ⟨116, 116⟩, "E"⟩, ⟨⟨"E.java"⟩, ⟨116, 116⟩, "make();\n        "⟩,
        ⟨⟨"E.java"⟩, ⟨123, 129⟩, "E"⟩]))
    (by rw [hsdef]; decide +kernel)
  simp only [Prod.mk.injEq] at hpe
  obtain ⟨hwalk, hgroups⟩ := hpe
  have hN : normalize (s.groupedEdits pending) =
      .ok [⟨⟨"E.java"⟩, ⟨116, 116⟩, "Emake();\n        "⟩, ⟨⟨"E.java"⟩, ⟨123, 129⟩, "E"⟩] := by
    rw [hgroups, normalize, TextEdit.sort, List.mergeSort_of_pairwise (by decide)]
    decide
  have hfin := s.finish_map_edits Messages.changeCodeStyle hplain.rawInserts_eq hplain.added_eq hp
  rw [hN] at hfin
  cases hc : s.finish Messages.changeCodeStyle with
  | error err => rw [hc] at hfin; cases hfin
  | ok c =>
    rw [hc] at hfin
    have hedits : c.edits =
        [⟨⟨"E.java"⟩, ⟨116, 116⟩, "Emake();\n        "⟩, ⟨⟨"E.java"⟩, ⟨123, 129⟩, "E"⟩] :=
      Except.ok.inj hfin
    refine ⟨_, s, c, createCleanUp_maxThroughExpressions, hs, hc, ?_, ?_⟩
    · rw [UnitChange.apply, hedits, applyEdits, List.mergeSort_of_pairwise (by decide), hsdef]
      decide +kernel
    · refine (EditSession.rendered_eq_ok_iff hplain hwf hroot hp _).2 ?_
      rw [hwalk, applyEdits, List.mergeSort_of_pairwise (by decide), hsdef]
      decide +kernel


end QuickFix
