import Mathlib.Tactic.SplitIfs
import QuickFix.Fix.CleanUp
import QuickFix.Setup.Declaration

/-!
# Fixes that change one node twice

An edit session records at most one change per node: `EditSession.record` refuses a node that
already has one, and no operation takes a recorded change back. So a fix two of whose operations
each record a change of the same node cannot be written, whatever else it does
(`Fix.change_eq_error_of_sublist`).

A clean-up can be such a fix. `resolveStaticAccesses` drops the `this` qualification of a
qualifier it converts, but not a qualification with the declaring class: a static field used by
its plain name as the qualifier of a static access is both qualified and replaced, and the
clean-up fails (`createCleanUp_fails_of_qualified_static_access`).
-/

namespace QuickFix

/-! ### Steps and folds in `Except` -/

section Folds

variable {ε α σ : Type} (P : σ → Prop)

/-- A successful bind is a successful first step followed by a successful rest. -/
theorem except_bind_eq_ok {β : Type} {x : Except ε α} {f : α → Except ε β} {b : β} :
    x >>= f = .ok b ↔ ∃ a, x = .ok a ∧ f a = .ok b := by
  cases x <;> simp [bind, Except.bind]

/-- An option that holds a value holds the value it gives for any default. -/
theorem eq_some_getD_of_isSome [Inhabited α] {o : Option α} (h : o.isSome = true) :
    o = some (o.getD default) :=
  (Option.eq_some_of_isSome h).trans (congrArg some (Option.get_eq_getD _))

/-- A property that each step keeps holds after a fold. -/
theorem foldl_invariant (f : σ → α → σ) (hf : ∀ s a, P s → P (f s a)) :
    ∀ (l : List α) (s : σ), P s → P (l.foldl f s)
  | [], _, hs => hs
  | a :: l, s, hs => foldl_invariant f hf l (f s a) (hf s a hs)

/-- A property that each successful step keeps holds after a successful fold. -/
theorem foldlM_invariant (f : σ → α → Except ε σ)
    (hf : ∀ s a s', P s → f s a = .ok s' → P s') :
    ∀ (l : List α) (s s' : σ), P s → l.foldlM f s = .ok s' → P s'
  | [], _, _, hs, h => by cases h; exact hs
  | a :: l, s, s', hs, h => by
    rw [List.foldlM_cons] at h
    cases hstep : f s a with
    | error e => simp [hstep, bind, Except.bind] at h
    | ok s₁ =>
      simp only [hstep, bind, Except.bind] at h
      exact foldlM_invariant f hf l s₁ s' (hf s a s₁ hs hstep) h

end Folds

namespace EditSession

/-- The nodes that have a recorded change, in the order they were recorded. -/
def changedNodes (s : EditSession) : List NodeId := s.changes.map (·.1)

theorem isChanged_iff (s : EditSession) (n : NodeId) :
    s.isChanged n = true ↔ n ∈ s.changedNodes := by
  simp [isChanged, changeOf?, changedNodes]

/-- `s'` is `s` with more recorded: the same unit, and every change of `s` still recorded. -/
structure Extends (s s' : EditSession) : Prop where
  tree : s'.tree = s.tree
  changed : ∀ n ∈ s.changedNodes, n ∈ s'.changedNodes

theorem Extends.refl (s : EditSession) : Extends s s := ⟨rfl, fun _ h => h⟩

theorem Extends.trans {s₁ s₂ s₃ : EditSession} (h₁ : Extends s₁ s₂) (h₂ : Extends s₂ s₃) :
    Extends s₁ s₃ :=
  ⟨h₂.tree.trans h₁.tree, fun n hn => h₂.changed n (h₁.changed n hn)⟩

/-- Steps that leave the changes and the unit alone extend the session. -/
theorem Extends.of_eq {s s' : EditSession} (ht : s'.tree = s.tree) (hc : s'.changes = s.changes) :
    Extends s s' :=
  ⟨ht, fun n hn => by simpa [changedNodes, hc] using hn⟩

/-! ### What each step of a session does to the recorded changes -/

variable {s s' : EditSession}

@[simp] theorem group_tree : s.group.1.tree = s.tree := by
  unfold group; split <;> rfl

@[simp] theorem group_changes : s.group.1.changes = s.changes := by
  unfold group; split <;> rfl

@[simp] theorem beginGroup_tree (d : String) : (s.beginGroup d).tree = s.tree := rfl

@[simp] theorem beginGroup_changes (d : String) : (s.beginGroup d).changes = s.changes := rfl

@[simp] theorem addImport_tree (ty : TypeId) : (s.addImport ty).2.tree = s.tree := by
  unfold addImport group; dsimp only; split <;> rfl

@[simp] theorem addImport_changes (ty : TypeId) : (s.addImport ty).2.changes = s.changes := by
  unfold addImport group; dsimp only; split <;> rfl

@[simp] theorem insertText_tree (o : Nat) (x : String) : (s.insertText o x).tree = s.tree := by
  unfold insertText group; dsimp only; split <;> rfl

@[simp] theorem insertText_changes (o : Nat) (x : String) :
    (s.insertText o x).changes = s.changes := by
  unfold insertText group; dsimp only; split <;> rfl

/-- `record` refuses a node outside the unit or already changed, and else appends the change
in the current group. -/
theorem record_eq (n : NodeId) (c : NodeChange) :
    s.record n c =
      if !s.tree.contains n then .error (.staleNode s.tree.file n)
      else if s.isChanged n then .error (.conflictingChange s.tree.file n)
      else .ok { s.group.1 with changes := s.changes ++ [(n, c, s.group.2)] } := by
  unfold record check
  by_cases hn : s.tree.contains n <;> by_cases hc : s.isChanged n <;> simp [hn, hc] <;> rfl

theorem Extends.insertText (h : Extends s s') (o : Nat) (x : String) :
    Extends s (s'.insertText o x) :=
  h.trans (Extends.of_eq (by simp) (by simp))

theorem Extends.addImport (h : Extends s s') (ty : TypeId) : Extends s (s'.addImport ty).2 :=
  h.trans (Extends.of_eq (by simp) (by simp))

/-- Recording a change adds its node to the changed ones. -/
theorem record_eq_ok {n : NodeId} {c : NodeChange} (h : s.record n c = .ok s') :
    Extends s s' ∧ n ∈ s'.changedNodes := by
  rw [record_eq] at h
  by_cases hn : s.tree.contains n <;> by_cases hc : s.isChanged n <;> simp [hn, hc] at h
  subst h
  exact ⟨⟨by simp, fun m hm => by simp_all [changedNodes]⟩, by simp [changedNodes]⟩

/-- A node that has a change already cannot be recorded again. -/
theorem record_of_mem_changedNodes {n : NodeId} (c : NodeChange) (h : n ∈ s.changedNodes) :
    ∃ e, s.record n c = .error e := by
  have hc : s.isChanged n = true := (isChanged_iff s n).2 h
  rw [record_eq]
  by_cases hn : s.tree.contains n <;> simp [hn, hc]

/-- Hoisting a statement keeps every recorded change: it adds a block around the statement, or
grows the block already there. -/
theorem extractBefore_extends {stmt : NodeId} {t : Template} (h : s.extractBefore stmt t = .ok s') :
    Extends s s' := by
  unfold extractBefore check at h
  by_cases hn : s.tree.contains stmt
  · simp only [hn, bind, Except.bind, pure, Except.pure] at h
    simp at h
    split_ifs at h
    · -- a statement of a block: only the insertions before it change
      cases h
      exact Extends.of_eq (by simp) (by simp)
    · split at h
      · -- a block already wraps the statement: its change is replaced in place
        cases h
        refine ⟨rfl, fun m hm => ?_⟩
        obtain ⟨e, he, rfl⟩ := List.mem_map.1 hm
        simp only [changedNodes, List.map_map, List.mem_map]
        exact ⟨e, he, by by_cases hs : e.1 = stmt <;> simp [hs]⟩
      · simp [throw, throwThe, MonadExceptOf.throw] at h
      · cases h
        exact ⟨rfl, fun m hm => by simp_all [changedNodes]⟩
  · simp [hn, bind, Except.bind] at h

theorem requiredChild_eq_ok {n c : NodeId} {r : Role} (h : s.requiredChild n r = .ok c) :
    s.tree.child n r = some c := by
  unfold requiredChild at h
  split at h
  · simp at h
  · split at h <;> simp_all

end EditSession

namespace MemberStub

open EditSession

/-- Writing a stub only plans imports: it keeps every property of sessions that is kept by
planning an import. -/
theorem render_invariant (P : EditSession → Prop) (hP : ∀ s ty, P s → P (s.addImport ty).2)
    (stub : MemberStub) {s : EditSession} (hs : P s) (indent unit sep : String) :
    P (stub.render s indent unit sep).2 := by
  -- the import of the type, then one import per parameter
  have hparams : ∀ s₁ : EditSession, P s₁ → ∀ l : List (TypeId × String),
      P (l.foldl (fun (r : List String × EditSession) (a : TypeId × String) =>
        (r.1 ++ [(r.2.addImport a.1).1 ++ " " ++ a.2], (r.2.addImport a.1).2)) ([], s₁)).2 :=
    fun s₁ h₁ l => foldl_invariant (fun r : List String × EditSession => P r.2) _
      (fun r a h => hP _ a.1 h) l _ h₁
  -- a method or a constructor plans the imports of its parameters after that of its type; a
  -- field or an attribute only that of its type
  cases hty : stub.ty with
  | none =>
    have h₁ := hparams s hs stub.params
    unfold render
    cases stub.kind <;> simp only [hty] <;> (try split) <;> first | exact hs | exact h₁
  | some ty =>
    have h₀ := hP s ty hs
    have h₁ := hparams _ h₀ stub.params
    unfold render
    cases stub.kind <;> simp only [hty] <;> (try split) <;> first | exact h₀ | exact h₁

/-- Adding a stub plans imports and inserts text: it keeps every property of sessions that
planning an import and inserting text keep. -/
theorem apply_invariant (P : EditSession → Prop) (hP : ∀ s ty, P s → P (s.addImport ty).2)
    (hT : ∀ s o x, P s → P (s.insertText o x)) {stub : MemberStub} {s s' : EditSession}
    (hs : P s) (h : stub.apply s = .ok s') : P s' := by
  unfold apply at h
  simp only [pure, Except.pure] at h
  split at h
  · split at h
    · cases h
      exact hT _ _ _ (render_invariant P hP _ hs _ _ _)
    · simp [throw, throwThe, MonadExceptOf.throw] at h
  · simp [throw, throwThe, MonadExceptOf.throw] at h

/-- Adding a stub inserts text: it records no change of a node. -/
theorem apply_extends {stub : MemberStub} {s s' : EditSession} (h : stub.apply s = .ok s') :
    Extends s s' :=
  apply_invariant (Extends s) (fun _ ty h => h.addImport ty) (fun _ o x h => h.insertText o x)
    (Extends.refl s) h

end MemberStub

namespace Operation

open EditSession

/-- The node whose change an operation records, for the operations that change one node of the
unit that they name: the name qualified, the access whose `this.` goes, the receiver of a call,
the qualifier replaced, the call whose arguments change. -/
def changedNode? (t : SyntaxTree) : Operation → Option NodeId
  | addThisQualifier n .. | addStaticQualifier n .. => some n
  | removeThisQualifier (.field access) => some access
  | removeThisQualifier (.method inv) => t.child inv .expression
  | toStaticAccess q .. => some q
  | changeArguments inv _ => some inv
  | createMember _ | changeSignature .. => none

/-- An operation that succeeds ends by recording the change of its node, on a session that
extends the one it started from. -/
theorem exists_record_of_apply {op : Operation} {s s' : EditSession} {n : NodeId}
    (hn : op.changedNode? s.tree = some n) (h : op.apply s = .ok s') :
    ∃ s₁ c, Extends s s₁ ∧ s₁.record n c = .ok s' := by
  have hg : Extends s (s.beginGroup op.description) := Extends.of_eq rfl rfl
  unfold apply at h
  cases op with
  | addThisQualifier n' _ q =>
    cases hn
    exact ⟨_, _, hg, h⟩
  | addStaticQualifier n' declaring _ =>
    cases hn
    exact ⟨_, _, hg.addImport declaring, h⟩
  | removeThisQualifier target =>
    cases target with
    | field access =>
      cases hn
      obtain ⟨_, -, h⟩ := except_bind_eq_ok.1 h
      exact ⟨_, _, hg, h⟩
    | method inv =>
      obtain ⟨recv, hrecv, h⟩ := except_bind_eq_ok.1 h
      have : n = recv := by
        have := requiredChild_eq_ok hrecv
        simp_all [changedNode?]
      subst this
      exact ⟨_, _, hg, h⟩
  | toStaticAccess q declaring _ _ =>
    cases hn
    dsimp only at h
    -- reading a qualifier outside the unit aborts
    split at h
    · split_ifs at h
      · split at h
        · obtain ⟨s₁, h₁, h⟩ := except_bind_eq_ok.1 h
          exact ⟨_, _, (hg.trans (extractBefore_extends h₁)).addImport declaring, h⟩
        · exact ⟨_, _, hg.addImport declaring, h⟩
      · exact ⟨_, _, hg.addImport declaring, h⟩
    · cases h
  | changeArguments inv c =>
    cases hn
    dsimp only at h
    split at h
    · obtain ⟨_, -, h⟩ := except_bind_eq_ok.1 h
      obtain ⟨_, -, h⟩ := except_bind_eq_ok.1 h
      exact ⟨_, _, hg, h⟩
    · cases h
  | createMember _ => cases hn
  | changeSignature _ _ => cases hn

/-- No operation takes a recorded change back. -/
theorem apply_extends {op : Operation} {s s' : EditSession} (h : op.apply s = .ok s') :
    Extends s s' := by
  cases hn : op.changedNode? s.tree with
  | some n =>
    obtain ⟨s₁, c, h₁, hrec⟩ := exists_record_of_apply hn h
    exact h₁.trans (record_eq_ok hrec).1
  | none =>
    -- a stub, a new signature, or the removal of a receiver that is not there
    have hg : Extends s (s.beginGroup op.description) := Extends.of_eq rfl rfl
    unfold apply at h
    cases op with
    | addThisQualifier _ _ _ => cases hn
    | addStaticQualifier _ _ _ => cases hn
    | removeThisQualifier target =>
      cases target with
      | field _ => cases hn
      | method inv =>
        obtain ⟨recv, hrecv, -⟩ := except_bind_eq_ok.1 h
        have := requiredChild_eq_ok hrecv
        simp_all [changedNode?]
    | toStaticAccess _ _ _ _ => cases hn
    | changeArguments _ _ => cases hn
    | createMember stub => exact hg.trans (MemberStub.apply_extends h)
    | changeSignature m c =>
      dsimp only at h
      split at h
      · obtain ⟨⟨_, s₁⟩, hfold, h⟩ := except_bind_eq_ok.1 h
        obtain ⟨_, -, h⟩ := except_bind_eq_ok.1 h
        -- each parameter at most plans an import
        have h₁ : Extends s s₁ := by
          refine foldlM_invariant (fun r : List Template × EditSession => Extends s r.2) _ ?_
            _ _ _ hg hfold
          rintro ⟨acc, s₂⟩ slot r h₂ hr
          cases slot with
          | existing i =>
            obtain ⟨_, -, hr⟩ := except_bind_eq_ok.1 hr
            cases hr
            exact h₂
          | retyped i ty =>
            obtain ⟨_, -, hr⟩ := except_bind_eq_ok.1 hr
            obtain ⟨_, -, hr⟩ := except_bind_eq_ok.1 hr
            cases hr
            exact h₂.addImport ty
          | new ty name =>
            cases hr
            exact h₂.addImport ty
        exact h₁.trans (record_eq_ok h).1
      · simp [throw, throwThe, MonadExceptOf.throw] at h

/-- An operation that succeeds has recorded the change of its node. -/
theorem mem_changedNodes_of_apply {op : Operation} {s s' : EditSession} {n : NodeId}
    (hn : op.changedNode? s.tree = some n) (h : op.apply s = .ok s') : n ∈ s'.changedNodes := by
  obtain ⟨s₁, c, -, hrec⟩ := exists_record_of_apply hn h
  exact (record_eq_ok hrec).2

/-- An operation fails on a session where its node has a change already. -/
theorem apply_of_mem_changedNodes {op : Operation} {s : EditSession} {n : NodeId}
    (hn : op.changedNode? s.tree = some n) (hc : n ∈ s.changedNodes) :
    ∃ e, op.apply s = .error e := by
  cases h : op.apply s with
  | error e => exact ⟨e, rfl⟩
  | ok s' =>
    obtain ⟨s₁, c, h₁, hrec⟩ := exists_record_of_apply hn h
    obtain ⟨e, he⟩ := record_of_mem_changedNodes c (h₁.changed n hc)
    rw [hrec] at he
    cases he

/-! ### Runs of operations -/

/-- Once a node has a change, a run that comes to another operation on it fails. -/
theorem foldlM_apply_of_mem_changedNodes {b : Operation} {n : NodeId} :
    ∀ {ops : List Operation} {s : EditSession}, b ∈ ops → b.changedNode? s.tree = some n →
      n ∈ s.changedNodes → ∃ e, ops.foldlM (fun s op => op.apply s) s = .error e
  | [], _, hb, _, _ => by cases hb
  | x :: ops, s, hb, hbn, hc => by
    rw [List.foldlM_cons]
    cases hx : x.apply s with
    | error e => exact ⟨e, rfl⟩
    | ok s₁ =>
      -- `x` itself cannot be `b`: that would have failed
      have hs₁ := apply_extends hx
      rcases List.mem_cons.1 hb with rfl | hb
      · obtain ⟨e, he⟩ := apply_of_mem_changedNodes hbn hc
        rw [hx] at he
        cases he
      · exact foldlM_apply_of_mem_changedNodes hb (hs₁.tree ▸ hbn) (hs₁.changed n hc)

/-- A run in which two operations change one node fails. -/
theorem foldlM_apply_of_sublist {a b : Operation} {n : NodeId} :
    ∀ {ops : List Operation} {s : EditSession}, List.Sublist [a, b] ops →
      a.changedNode? s.tree = some n → b.changedNode? s.tree = some n →
      ∃ e, ops.foldlM (fun s op => op.apply s) s = .error e
  | [], _, hab, _, _ => by cases hab
  | x :: ops, s, hab, ha, hb => by
    rw [List.foldlM_cons]
    cases hx : x.apply s with
    | error e => exact ⟨e, rfl⟩
    | ok s₁ =>
      have hs₁ := apply_extends hx
      cases hab with
      | cons _ hab => exact foldlM_apply_of_sublist hab (hs₁.tree ▸ ha) (hs₁.tree ▸ hb)
      | cons_cons _ hb' =>
        -- `x` is `a`: it has changed the node, and `b` comes later
        exact foldlM_apply_of_mem_changedNodes (hb'.subset (List.mem_singleton_self b))
          (hs₁.tree ▸ hb) (mem_changedNodes_of_apply ha hx)

end Operation

namespace Fix

/-- **A fix that changes one node twice cannot be written.** Whatever the fix and the project,
if two of its operations, in order, change the same node of its unit, `change` fails. -/
theorem change_eq_error_of_sublist {f : Fix} {p : Project} {t : SyntaxTree}
    (ht : p.unit? f.file = some t) {a b : Operation} {n : NodeId}
    (hab : List.Sublist [a, b] f.ops) (ha : a.changedNode? t = some n)
    (hb : b.changedNode? t = some n) (fmt : Format) : ∃ e, f.change p fmt = .error e := by
  unfold change
  cases hs : EditSession.start p f.file fmt with
  | error e => exact ⟨e, by simp [bind, Except.bind]⟩
  | ok s =>
    have htree : s.tree = t := by
      unfold EditSession.start at hs
      rw [ht] at hs
      cases hs
      rfl
    obtain ⟨e, he⟩ := Operation.foldlM_apply_of_sublist hab (htree ▸ ha) (htree ▸ hb)
    exact ⟨e, by simp [bind, Except.bind, he]⟩

end Fix

/-! ### Static-access conversions in a clean-up -/

/-- Every proposal for a static access replaces a qualifier by a type. -/
theorem exists_toStaticAccess_of_mem_staticAccessOperations {b : Bindings} {t : SyntaxTree}
    {p : Problem} {c : Bool} {op : Operation} (hop : op ∈ staticAccessOperations b t p c) :
    ∃ q d a k, op = .toStaticAccess q d a k := by
  unfold staticAccessOperations at hop
  simp only [pure_bind] at hop
  -- each branch proposes nothing, or one or two conversions
  repeat' split at hop
  all_goals simp only [Id.run_pure, List.mem_cons, List.mem_append, List.not_mem_nil, or_false,
    false_or] at hop
  all_goals rcases hop with rfl | rfl <;> exact ⟨_, _, _, _, rfl⟩

/-- One problem's step of `resolveStaticAccesses`: the first proposal for a wanted problem is
added, once per qualifier, and a `this` qualification of that qualifier is dropped. -/
def resolveStep (b : Bindings) (t : SyntaxTree) (nonStatic indirect : Bool)
    (r : List Operation × List Operation) (p : Problem) : List Operation × List Operation :=
  let (ops, convs) := r
  let wanted := (nonStatic && p.kind.isNonStaticAccess) ||
    (indirect && p.kind.isIndirectStaticAccess)
  if !wanted then (ops, convs)
  else match (staticAccessOperations b t p true).head? with
    | none => (ops, convs)
    | some conv =>
      match conv.target? with
      | none => (ops, convs)
      | some q =>
        if convs.any (·.target? == some q) then (ops, convs)
        else
          let isThisOf := fun (op : Operation) => match op with
            | .addThisQualifier n .. => n == q
            | _ => false
          let ops := match ops.findIdx? isThisOf with
            | some i => ops.eraseIdx i
            | none => ops
          (ops, convs ++ [conv])

theorem resolveStaticAccesses_eq {b : Bindings} {t : SyntaxTree} {problems : List Problem}
    {nonStatic indirect : Bool} (h : (nonStatic || indirect) = true) (ops : List Operation) :
    resolveStaticAccesses b t problems nonStatic indirect ops =
      (problems.foldl (resolveStep b t nonStatic indirect) (ops, [])).1 ++
        (problems.foldl (resolveStep b t nonStatic indirect) (ops, [])).2.mergeSort
          (conversionBefore t) := by
  have h' : (!nonStatic && !indirect) = false := by cases nonStatic <;> cases indirect <;> simp_all
  unfold resolveStaticAccesses
  rw [if_neg (by simp [h'])]
  rfl

/-- Removing the first element that satisfies `p` keeps every element that does not. -/
theorem mem_eraseIdx_of_findIdx? {α : Type} {l : List α} {p : α → Bool} {i : Nat}
    (hi : l.findIdx? p = some i) {x : α} (hx : x ∈ l) (hpx : p x = false) : x ∈ l.eraseIdx i := by
  obtain ⟨j, hj⟩ := List.mem_iff_getElem?.1 hx
  refine List.mem_eraseIdx_iff_getElem?.2 ⟨j, ?_, hj⟩
  rintro rfl
  obtain ⟨hlt, hp, -⟩ := List.findIdx?_eq_some_iff_getElem.1 hi
  have : l[j] = x := by simpa [hlt] using hj
  simp_all

section Resolve

variable {b : Bindings} {t : SyntaxTree} {nonStatic indirect : Bool}

/-- A qualification with the declaring class is never dropped by a step. -/
theorem mem_resolveStep_of_addStaticQualifier {r : List Operation × List Operation} {p : Problem}
    {n : NodeId} {d : TypeId} {m : Bool} (h : .addStaticQualifier n d m ∈ r.1) :
    .addStaticQualifier n d m ∈ (resolveStep b t nonStatic indirect r p).1 := by
  obtain ⟨ops, convs⟩ := r
  unfold resolveStep
  dsimp only
  split
  · exact h
  · split
    · exact h
    · split
      · exact h
      · split
        · exact h
        · dsimp only
          split
          · exact mem_eraseIdx_of_findIdx? ‹_› h rfl
          · exact h

/-- A step adds at most one conversion, the problem's first proposal. -/
theorem resolveStep_snd {r : List Operation × List Operation} {p : Problem} :
    (resolveStep b t nonStatic indirect r p).2 = r.2 ∨
      ∃ conv, (staticAccessOperations b t p true).head? = some conv ∧
        (resolveStep b t nonStatic indirect r p).2 = r.2 ++ [conv] := by
  obtain ⟨ops, convs⟩ := r
  unfold resolveStep
  dsimp only
  split
  · exact .inl rfl
  · split
    · exact .inl rfl
    · next conv hconv =>
      split
      · exact .inl rfl
      · split
        · exact .inl rfl
        · exact .inr ⟨conv, hconv, rfl⟩

/-- After the step of a wanted problem, its qualifier has a conversion. -/
theorem exists_target_resolveStep {r : List Operation × List Operation} {p : Problem}
    (hwant : ((nonStatic && p.kind.isNonStaticAccess) ||
      (indirect && p.kind.isIndirectStaticAccess)) = true)
    {conv : Operation} (hconv : (staticAccessOperations b t p true).head? = some conv)
    {q : NodeId} (hq : conv.target? = some q) :
    ∃ c ∈ (resolveStep b t nonStatic indirect r p).2, c.target? = some q := by
  obtain ⟨ops, convs⟩ := r
  unfold resolveStep
  simp only [hwant, hconv, hq, Bool.not_true, Bool.false_eq_true, if_false]
  split
  · next hany =>
    obtain ⟨c, hc, hcq⟩ := List.any_eq_true.1 hany
    exact ⟨c, hc, by simpa using hcq⟩
  · exact ⟨conv, by simp, hq⟩

/-- A qualification with the declaring class survives the conversions of static accesses, and
the qualifier of each wanted problem's first proposal is converted after it. -/
theorem sublist_resolveStaticAccesses {problems : List Problem} {ops : List Operation}
    {n : NodeId} {d : TypeId} {m : Bool} (hq : .addStaticQualifier n d m ∈ ops)
    {pr : Problem} (hpr : pr ∈ problems)
    (hwant : ((nonStatic && pr.kind.isNonStaticAccess) ||
      (indirect && pr.kind.isIndirectStaticAccess)) = true)
    {conv : Operation} (hconv : (staticAccessOperations b t pr true).head? = some conv)
    (hn : conv.target? = some n) :
    ∃ d' a k, List.Sublist [.addStaticQualifier n d m, .toStaticAccess n d' a k]
      (resolveStaticAccesses b t problems nonStatic indirect ops) := by
  have hboth : (nonStatic || indirect) = true := by
    cases nonStatic <;> cases indirect <;> simp_all
  rw [resolveStaticAccesses_eq hboth]
  -- the invariant of the fold: the qualification stays, and every conversion replaces a
  -- qualifier by a type
  let Inv : List Operation × List Operation → Prop := fun r =>
    .addStaticQualifier n d m ∈ r.1 ∧ ∀ c ∈ r.2, ∃ q d a k, c = .toStaticAccess q d a k
  have hstep : ∀ r p, Inv r → Inv (resolveStep b t nonStatic indirect r p) := by
    rintro r p ⟨h₁, h₂⟩
    refine ⟨mem_resolveStep_of_addStaticQualifier h₁, fun c hc => ?_⟩
    rcases @resolveStep_snd b t nonStatic indirect r p with h | ⟨conv, hconv, h⟩
    · exact h₂ c (h ▸ hc)
    · rcases List.mem_append.1 (h ▸ hc) with hc | hc
      · exact h₂ c hc
      · rw [List.mem_singleton.1 hc]
        exact exists_toStaticAccess_of_mem_staticAccessOperations (List.mem_of_head? hconv)
  -- once the qualifier of `pr` has a conversion, it keeps one
  let Converted : List Operation × List Operation → Prop := fun r => ∃ c ∈ r.2, c.target? = some n
  have hkeep : ∀ r p, Converted r → Converted (resolveStep b t nonStatic indirect r p) := by
    rintro r p ⟨c, hc, hcn⟩
    rcases @resolveStep_snd b t nonStatic indirect r p with h | ⟨_, _, h⟩
    · exact ⟨c, h ▸ hc, hcn⟩
    · exact ⟨c, h ▸ List.mem_append_left _ hc, hcn⟩
  obtain ⟨pre, post, rfl⟩ := List.append_of_mem hpr
  rw [List.foldl_append, List.foldl_cons]
  have h₁ := foldl_invariant Inv _ hstep pre (ops, []) ⟨hq, by simp⟩
  have h₂ := foldl_invariant (fun r => Inv r ∧ Converted r) _
    (fun r p h => ⟨hstep r p h.1, hkeep r p h.2⟩) post _
    ⟨hstep _ pr h₁, exists_target_resolveStep hwant hconv hn⟩
  obtain ⟨⟨hqual, hshape⟩, c, hc, hcn⟩ := h₂
  obtain ⟨q, d', a, k, rfl⟩ := hshape c hc
  cases hcn
  exact ⟨d', a, k, (List.singleton_sublist.2 hqual).append
    (List.singleton_sublist.2 (List.mem_mergeSort.2 hc))⟩

end Resolve

/-- **A clean-up that qualifies a static field and converts it fails.** When the options ask
for some qualification, and the name `n` is both qualified with its declaring class and the
qualifier that the first proposal for a wanted static-access problem replaces, the clean-up is a
fix, but one that cannot be written: both operations change `n`. -/
theorem createCleanUp_fails_of_qualified_static_access {p : Project} {file : FileId}
    {problems : List Problem} {o : CodeStyle} {t : SyntaxTree} (ht : p.unit? file = some t)
    (hq : o.anyQualify = true) {n : NodeId} {d : TypeId} {m : Bool}
    (hqual : .addStaticQualifier n d m ∈ qualifyOperations p.bindings t o)
    {pr : Problem} (hpr : pr ∈ problems)
    (hwant : ((o.nonStaticToStatic && pr.kind.isNonStaticAccess) ||
      (o.indirectToDirect && pr.kind.isIndirectStaticAccess)) = true)
    {conv : Operation} (hconv : (staticAccessOperations p.bindings t pr true).head? = some conv)
    (hn : conv.target? = some n) :
    ∃ f, createCleanUp p file problems o = some f ∧ ∀ fmt, ∃ e, f.change p fmt = .error e := by
  obtain ⟨d', a, k, hsub⟩ := sublist_resolveStaticAccesses hqual hpr hwant hconv hn
  have hany : o.any = true := by simp [CodeStyle.any, hq]
  have hstatic : o.anyStaticAccess = true := by
    cases h₁ : o.nonStaticToStatic <;> cases h₂ : o.indirectToDirect <;>
      simp_all [CodeStyle.anyStaticAccess]
  -- any list of operations with both in order makes a fix that cannot be written
  have hfix : ∀ ops, List.Sublist [.addStaticQualifier n d m, .toStaticAccess n d' a k] ops →
      ∃ f, Fix.mk? Messages.changeCodeStyle file ops = some f ∧
        ∀ fmt, ∃ e, f.change p fmt = .error e := by
    intro ops hops
    have hne : ops.isEmpty = false := by
      cases ops with
      | nil => cases hops.length_le
      | cons _ _ => rfl
    exact ⟨⟨Messages.changeCodeStyle, file, ops⟩, by simp [Fix.mk?, hne],
      fun fmt => Fix.change_eq_error_of_sublist ht hops rfl rfl fmt⟩
  unfold createCleanUp
  simp only [hany, hq, hstatic, ht, Bool.not_true, Bool.false_eq_true, if_false, if_true]
  -- the removals of `this.`, when asked for, come after
  split
  · exact hfix _ (hsub.trans (List.sublist_append_left _ _))
  · exact hfix _ hsub

/-- The program
```
package p;
public class E {
    private static Helper helper;
    int get() {
        return helper.MAX;
    }
}
```
where `Helper` is a public class of `p` with a field `public static final int MAX`. -/
def staticFieldThroughField : Project :=
  let setup : Except String Setup := do
    let s ← [.type .classType "E" "p" none none "E",
        .type .classType "Helper" "p" none none "Helper",
        .field "MAX" "Helper" "int" { isPublic := true, isStatic := true, isFinal := true } none
          "MAX",
        .field "helper" "E" "Helper" { isPrivate := true, isStatic := true } none "helper",
        .method "get" "E" [] (some "int") {} false none "get"].foldlM Setup.declare {}
    let unit : Outline.SourceUnit :=
      { file := "E.java", package := some "p",
        types := [.mk ⟨12⟩ [.field ⟨1⟩ none, .method ⟨0⟩ (some
          [.ret (some (.qualified (.name { binding := some (.var ⟨1⟩) })
            { binding := some (.var ⟨0⟩) }))])]] }
    match s.writeUnit unit with
    | .ok s => pure s
    | .error _ => throw "render"
  match setup with
  | .ok s => s.project
  | .error _ => default

/-- Asked to qualify static fields and to reach static members through their declaring type,
with `helper.MAX` reported as a static field reached through an instance, the clean-up of
`staticFieldThroughField` qualifies `helper` as `E.helper` and replaces it by `Helper`, and
cannot be written. -/
theorem createCleanUp_fails_on_static_field_through_field :
    ∃ f, createCleanUp staticFieldThroughField ⟨"E.java"⟩
        [⟨.nonStaticAccessToStaticField, 94, 10, []⟩]
        { qualifyStaticField := true, nonStaticToStatic := true } = some f ∧
      ∀ fmt, ∃ e, f.change staticFieldThroughField fmt = .error e := by
  have hunit : (staticFieldThroughField.unit? ⟨"E.java"⟩).isSome = true := by decide +kernel
  have ht : staticFieldThroughField.unit? ⟨"E.java"⟩ =
      some ((staticFieldThroughField.unit? ⟨"E.java"⟩).getD default) := by
    cases h : staticFieldThroughField.unit? ⟨"E.java"⟩ with
    | none => simp [h] at hunit
    | some t => rfl
  exact @createCleanUp_fails_of_qualified_static_access _ _ _ _ _ ht
    rfl ⟨15⟩ ⟨12⟩ false (by decide +kernel) _ (List.mem_singleton_self _) rfl
    (.toStaticAccess ⟨15⟩ ⟨13⟩ "Helper" .declaringType) (by decide +kernel) rfl

end QuickFix
