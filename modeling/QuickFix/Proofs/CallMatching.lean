import QuickFix.Proofs.ShapeMatching
import QuickFix.Proofs.SignatureProposals

/-!
# Proposed changes fit the call

When a call matches no declaration, every change proposed to it fits: a change of the call's
arguments passes each argument at most once, and the method it aims at accepts what it passes
(`CallArgument.fits_of_mem_argumentChanges`); a change of the method's parameters keeps each of
them at most once and the varargs one last, and the changed method accepts the call
(`CallArgument.fits_of_mem_signatureChanges`). Nothing is proposed when a candidate takes the
call as it is (`unresolvedProposals_fit_call`).
-/

namespace QuickFix

/-! ## Changes of the arguments -/

/-- The positions of the call's arguments that a change passes. -/
def ArgumentChange.kept (ch : ArgumentChange) : List Nat := ch.arguments.filterMap ArgumentSlot.existing?

/-- The types a change passes: an argument of the call its own type, a new argument the type of
the parameter at its place. -/
def ArgumentChange.types (ch : ArgumentChange) (tys params : List TypeId) : List TypeId :=
  slotTypes tys params ch.arguments

theorem map_getD_range {α : Type} [Inhabited α] (l : List α) :
    (List.range l.length).map (l.getD · default) = l := by
  refine List.ext_getElem? fun q => ?_
  by_cases hq : q < l.length
  · simp [List.getElem?_range hq, List.getElem?_eq_getElem hq]
  · simp [Nat.le_of_not_lt hq]

namespace CallArgument

variable (t : SyntaxTree) (b : Bindings) (m : MethodId) (args : List CallArgument)

/-- The three kinds of argument change: drop the extra arguments, add the missing ones, or swap
two. -/
theorem mem_argumentChanges {ch : ArgumentChange} (h : ch ∈ argumentChanges t b m args) :
    (∃ extras, (Shape.ofMethod b m).extraArguments b (args.map (·.ty)) = some extras ∧
      ch.arguments = (keptPositions args.length extras).map .existing) ∨
    (∃ missing name, (Shape.ofMethod b m).missingParameters b (args.map (·.ty)) = some missing ∧
      ch.arguments = ((List.range (Shape.ofMethod b m).params.length).foldl
        ((Shape.ofMethod b m).addStep missing name args.length) ([], 0)).1) ∨
    (∃ i j, (Shape.ofMethod b m).swap b (args.map (·.ty)) = some (i, j) ∧
      ch.arguments = swapAt ((List.range args.length).map .existing) i j) := by
  unfold argumentChanges at h
  simp only [List.mem_append] at h
  rcases h with (h | h) | h
  · split at h
    · next extras _ hx =>
      rw [List.mem_singleton] at h
      exact .inl ⟨_, hx, by rw [h]; rfl⟩
    · cases h
  · split at h
    · next missing _ hx =>
      rw [List.mem_singleton] at h
      exact .inr (.inl ⟨_, _, hx, by rw [h]; rfl⟩)
    · cases h
  · split at h
    · next i j hx =>
      rw [List.mem_singleton] at h
      exact .inr (.inr ⟨i, j, hx, by rw [h]⟩)
    · cases h

/-- **Every change of a call's arguments fits the method.** It passes each argument of the call
at most once and only arguments the call has, and the method's shape accepts the types it
passes: an argument of the call its own type, a new argument the type of the parameter it
stands for. -/
theorem fits_of_mem_argumentChanges {ch : ArgumentChange} (h : ch ∈ argumentChanges t b m args) :
    ch.kept.Nodup ∧ (∀ k ∈ ch.kept, k < args.length) ∧
      (Shape.ofMethod b m).accepts b
        (ch.types (args.map (·.ty)) (Shape.ofMethod b m).params) = true := by
  have hlen : (args.map (·.ty)).length = args.length := List.length_map _
  rcases mem_argumentChanges t b m args h with ⟨extras, hx, harg⟩ | ⟨missing, name, hx, harg⟩ |
    ⟨i, j, hx, harg⟩
  · -- the arguments that are not extra, in order
    rw [ArgumentChange.kept, ArgumentChange.types, harg, filterMap_existing?_map_existing,
      slotTypes_map_existing]
    refine ⟨nodup_keptPositions _ _, fun k hk => lt_of_mem_keptPositions hk, ?_⟩
    have := (Shape.ofMethod b m).accepts_keptTypes b hx
    rwa [Shape.keptTypes, hlen] at this
  · -- each missing parameter gets a new argument
    obtain ⟨hacc, hnodup, hlt⟩ := (Shape.ofMethod b m).accepts_addSlots b hx name
    rw [hlen] at hacc hnodup hlt
    rw [ArgumentChange.kept, ArgumentChange.types, harg]
    exact ⟨hnodup, fun k hk => hlen ▸ hlt k hk, hacc⟩
  · -- two arguments exchanged
    obtain ⟨hij, hj, hlenp, hacc⟩ := (Shape.ofMethod b m).accepts_swapAt_of_swap b hx
    have hj' : j < args.length := by have := (Shape.ofMethod b m).fixed_le_length; omega
    rw [ArgumentChange.kept, ArgumentChange.types, harg, ← map_swapAt,
      filterMap_existing?_map_existing, slotTypes_map_existing, map_swapAt, ← hlen,
      map_getD_range]
    refine ⟨nodup_swapAt_range (by omega) (hlen ▸ hj'), fun k hk => ?_, hacc⟩
    simpa using List.mem_range.1 (mem_of_mem_swapAt hk)

end CallArgument

/-! ## Changes of the parameters -/

/-- The parameter of the method that a slot keeps, retyped or not. -/
def ParameterSlot.kept? : ParameterSlot → Option Nat
  | .existing i | .retyped i _ => some i
  | .new .. => none

theorem filterMap_kept?_map_existing (ks : List Nat) :
    (ks.map ParameterSlot.existing).filterMap ParameterSlot.kept? = ks := by
  simp [List.filterMap_map, Function.comp_def, ParameterSlot.kept?]

/-- One argument of the parameter list that adds a parameter for each extra argument: a new
parameter for an extra one, else the next fixed parameter while there is one. -/
def Shape.widenStep (s : Shape) (newSlot : Nat → Nat → ParameterSlot) (extras : List Nat)
    (st : List ParameterSlot × Nat) (idx : Nat) : List ParameterSlot × Nat :=
  match extras.idxOf? idx with
  | some pos => (st.1 ++ [newSlot idx pos], st.2)
  | none => if st.2 < s.fixed then (st.1 ++ [.existing st.2], st.2 + 1) else (st.1, st.2)

/-- The parameter list for the extra arguments keeps the first fixed parameters, in order. -/
theorem Shape.widen_kept (s : Shape) (newSlot : Nat → Nat → ParameterSlot) (extras : List Nat)
    (n : Nat) (hnew : ∀ idx pos, (newSlot idx pos).kept? = none) :
    let st := (List.range n).foldl (s.widenStep newSlot extras) ([], 0)
    st.1.filterMap ParameterSlot.kept? = List.range st.2 ∧ st.2 ≤ s.fixed := by
  refine foldl_invariant (fun st : List ParameterSlot × Nat =>
    st.1.filterMap ParameterSlot.kept? = List.range st.2 ∧ st.2 ≤ s.fixed) _ ?_ _ _
    ⟨rfl, Nat.zero_le _⟩
  rintro ⟨acc, p⟩ idx ⟨hkept, hp⟩
  unfold widenStep
  split
  · exact ⟨by simp [List.filterMap_append, hkept, hnew], hp⟩
  · split
    · next hlt => exact ⟨by simp [List.filterMap_append, hkept, ParameterSlot.kept?, List.range_succ], hlt⟩
    · exact ⟨hkept, hp⟩

namespace Shape

variable (s : Shape)

/-- A parameter list for a shape: each parameter kept at most once and in range, and the varargs
one, if the shape has it, kept as the last. -/
structure KeepsSlots (params : List ParameterSlot) : Prop where
  nodup : (params.filterMap ParameterSlot.kept?).Nodup
  lt_length : ∀ k ∈ params.filterMap ParameterSlot.kept?, k < s.params.length
  varargs_last : s.varargs = true → params.getLast? = some (.existing (s.params.length - 1))

namespace KeepsSlots

variable {s}

theorem widen {pre : List ParameterSlot} {p : Nat}
    (hpre : pre.filterMap ParameterSlot.kept? = List.range p) (hp : p ≤ s.fixed)
    (hpos : s.varargs = true → 0 < s.params.length) :
    s.KeepsSlots (if s.varargs then pre ++ [.existing (s.params.length - 1)] else pre) := by
  have hfix := s.fixed_le_length
  cases hva : s.varargs
  · refine ⟨?_, fun k hk => ?_, by simp [hva]⟩
    · simpa [hpre] using List.nodup_range
    · simp [hpre] at hk; omega
  · have hfv := fixed_eq_of_varargs hva
    have hlen := hpos hva
    refine ⟨?_, fun k hk => ?_, fun _ => by simp⟩
    · simp [List.filterMap_append, hpre, ParameterSlot.kept?, List.nodup_append, List.nodup_range]
      omega
    · simp [List.filterMap_append, hpre, ParameterSlot.kept?] at hk; omega

theorem existing {ks : List Nat} (hnodup : ks.Nodup) (hlt : ∀ k ∈ ks, k < s.params.length)
    (hlast : s.varargs = true → ks.getLast? = some (s.params.length - 1)) :
    s.KeepsSlots (ks.map .existing) :=
  ⟨by rwa [filterMap_kept?_map_existing], by rwa [filterMap_kept?_map_existing],
    fun h => by simp [List.getLast?_map, hlast h]⟩

theorem remove {missing : List Nat} (hmiss : ∀ q ∈ missing, q < s.fixed)
    (hpos : s.varargs = true → 0 < s.params.length) :
    s.KeepsSlots ((keptPositions s.params.length missing).map .existing) := by
  refine existing (nodup_keptPositions _ _) (fun k hk => lt_of_mem_keptPositions hk) fun hva => ?_
  have hfv := fixed_eq_of_varargs hva
  have hlen := hpos hva
  have hlast : s.params.length - 1 ∉ missing := fun h => by have := hmiss _ h; omega
  obtain ⟨n, hn⟩ : ∃ n, s.params.length = n + 1 := ⟨_, (Nat.succ_pred_eq_of_pos hlen).symm⟩
  have hn' : n ∉ missing := by rwa [show n = s.params.length - 1 by omega]
  rw [hn, keptPositions_succ_of_not_mem hn']
  simp

theorem swap {i j : Nat} (hij : i < j) (hj : j < s.fixed) :
    s.KeepsSlots (swapAt ((List.range s.params.length).map .existing) i j) := by
  have hfix := s.fixed_le_length
  rw [← map_swapAt]
  refine existing (nodup_swapAt_range (by omega) (by omega))
    (fun k hk => List.mem_range.1 (mem_of_mem_swapAt hk)) fun hva => ?_
  have hfv := fixed_eq_of_varargs hva
  rw [List.getLast?_eq_getElem?, length_swapAt, List.length_range,
    getElem?_swapAt (by simp; omega) (by simp; omega)]
  have hne : ¬(s.params.length - 1 = j) ∧ ¬(s.params.length - 1 = i) := by omega
  simp [hne.1, hne.2, show s.params.length - 1 < s.params.length by omega]

theorem retype (f : Nat → ParameterSlot) (hf : ∀ idx, (f idx).kept? = some idx)
    (hpos : s.varargs = true → 0 < s.params.length)
    (hlast : s.varargs = true → f (s.params.length - 1) = .existing (s.params.length - 1)) :
    s.KeepsSlots ((List.range s.params.length).map f) := by
  have hkept : ((List.range s.params.length).map f).filterMap ParameterSlot.kept? =
      List.range s.params.length := by
    simp [List.filterMap_map, hf]
  refine ⟨by rw [hkept]; exact List.nodup_range, fun k hk => ?_, fun hva => ?_⟩
  · rw [hkept] at hk; exact List.mem_range.1 hk
  · have hne := List.ne_nil_of_length_pos (hpos hva)
    simp [List.getLast?_map, List.getLast?_range, hne, hlast hva]

end KeepsSlots

end Shape

namespace CallArgument

variable (t : SyntaxTree) (b : Bindings) (m : MethodId) (args : List CallArgument)

/-- The four kinds of signature change, each proposed only when the changed method accepts the
call: new parameters for the extra arguments (the fixed parameters kept in order, the varargs
one last), the unmatched parameters removed, two parameters swapped, or the mismatched ones
retyped. -/
theorem mem_signatureChanges {ch : SignatureChange} (h : ch ∈ signatureChanges t b m args) :
    ((Shape.ofMethod b m).withSlots ch.params).accepts b (args.map (·.ty)) = true ∧
    ((∃ pre p, pre.filterMap ParameterSlot.kept? = List.range p ∧ p ≤ (Shape.ofMethod b m).fixed ∧
        ch.params = if (Shape.ofMethod b m).varargs then
          pre ++ [.existing ((Shape.ofMethod b m).params.length - 1)] else pre) ∨
      (∃ missing, (Shape.ofMethod b m).missingParameters b (args.map (·.ty)) = some missing ∧
        ch.params = (keptPositions (Shape.ofMethod b m).params.length missing).map .existing) ∨
      (∃ i j, (Shape.ofMethod b m).swap b (args.map (·.ty)) = some (i, j) ∧
        ch.params = swapAt ((List.range (Shape.ofMethod b m).params.length).map .existing) i j) ∨
      ch.params = (List.range (Shape.ofMethod b m).params.length).map fun idx =>
        if idx < (Shape.ofMethod b m).fixed &&
            !b.isAssignable (args.getD idx default).ty ((Shape.ofMethod b m).params.getD idx default)
        then .retyped idx (args.getD idx default).stubTy else .existing idx) := by
  unfold signatureChanges at h
  simp only [List.mem_append] at h
  rcases h with (h | h) | h
  · split at h
    · next e es hx =>
      simp only [List.mem_ite_nil_right, List.mem_singleton] at h
      obtain ⟨hacc, rfl⟩ := h
      have hw := (Shape.ofMethod b m).widen_kept (fun idx pos => .new (args.getD idx default).stubTy
        ((Naming.forArguments t b ((e :: es).map fun i => ((args.getD i default).node,
          (args.getD i default).stubTy)) (b.method m).paramNames).getD pos "")) (e :: es) args.length
        (fun _ _ => rfl)
      exact ⟨hacc, .inl ⟨_, _, hw.1, hw.2, rfl⟩⟩
    · cases h
  · split at h
    · next e es hx =>
      simp only [List.mem_ite_nil_right, List.mem_singleton] at h
      obtain ⟨hacc, rfl⟩ := h
      exact ⟨hacc, .inr (.inl ⟨_, hx, rfl⟩)⟩
    · cases h
  · split at h
    · split at h
      · next i j hs =>
        simp only [List.mem_ite_nil_right, List.mem_singleton] at h
        obtain ⟨hacc, rfl⟩ := h
        exact ⟨hacc, .inr (.inr (.inl ⟨i, j, hs, rfl⟩))⟩
      · simp only [List.mem_ite_nil_right, List.mem_singleton] at h
        obtain ⟨hacc, rfl⟩ := h
        exact ⟨hacc, .inr (.inr (.inr rfl))⟩
    · cases h

/-- **Every proposed signature change fits the call.** It keeps each parameter of the method at
most once and the varargs one last, and the changed method accepts the arguments. -/
theorem fits_of_mem_signatureChanges {ch : SignatureChange} (h : ch ∈ signatureChanges t b m args) :
    (Shape.ofMethod b m).KeepsSlots ch.params ∧
      ((Shape.ofMethod b m).withSlots ch.params).accepts b (args.map (·.ty)) = true := by
  obtain ⟨hacc, hcase⟩ := mem_signatureChanges t b m args h
  refine ⟨?_, hacc⟩
  have hpos : (Shape.ofMethod b m).varargs = true → 0 < (Shape.ofMethod b m).params.length :=
    Shape.ofMethod_length_pos
  rcases hcase with ⟨pre, p, hpre, hp, hparams⟩ | ⟨missing, hM, hparams⟩ | ⟨i, j, hsw, hparams⟩ |
    hparams <;> rw [hparams]
  · exact .widen hpre hp hpos
  · exact .remove ((Shape.ofMethod b m).lt_fixed_of_mem_missingParameters b hM) hpos
  · obtain ⟨hij, hj, -, -⟩ := (Shape.ofMethod b m).accepts_swapAt_of_swap b hsw
    exact .swap hij hj
  · refine .retype _ (fun idx => by split <;> rfl) hpos fun hva => ?_
    have hfv := Shape.fixed_eq_of_varargs hva
    simp [hfv]


end CallArgument

/-! ## The proposals for a call -/

namespace ReferenceSite

variable (cx : ReferenceSite)

/-- Where each proposal for a call comes from: creating the member, a change of the call's
arguments for a candidate, or a change of a candidate's parameters; and there is none when a
candidate takes the arguments as they are. -/
theorem invocationProposals_of_call {covering : NodeId} {kind : ProblemKind} {c : Call}
    (hc : (cx.invocation covering).bind cx.call = some c) :
    ((∃ m ∈ cx.candidates c,
        (Shape.ofMethod cx.bindings m).accepts cx.bindings (c.args.map (·.ty)) = true) →
      cx.invocationProposals covering kind = []) ∧
    ∀ f ∈ cx.invocationProposals covering kind, (∃ stub, f.ops = [.createMember stub]) ∨
      (∃ m ∈ cx.candidates c, ∃ ch ∈ CallArgument.argumentChanges cx.tree cx.bindings m c.args,
        f.ops = [.changeArguments c.node ch]) ∨
      (∃ m ∈ cx.candidates c, ∃ ch ∈ CallArgument.signatureChanges cx.tree cx.bindings m c.args,
        f.ops = [.changeSignature m ch]) := by
  unfold invocationProposals
  simp only
  rw [hc]
  simp only
  refine ⟨fun ⟨m, hm, hacc⟩ => if_pos (List.any_eq_true.2 ⟨m, hm, hacc⟩), fun f hf => ?_⟩
  split at hf
  · cases hf
  -- a mismatch of parameters puts creating the member last
  split at hf
  all_goals simp only [List.mem_append, List.mem_flatMap, List.mem_filterMap, Option.mem_toList,
    or_assoc] at hf
  all_goals rcases hf with h | h | h
  all_goals first
    | exact .inl (cx.createInvoked_ops h)
    | (obtain ⟨m, hm, ch, hch, h⟩ := h
       exact .inr (.inl ⟨m, hm, ch, hch, congrArg Fix.ops (Fix.eq_of_mk?_eq_some h)⟩))
    | (obtain ⟨m, hm, h⟩ := h
       split at h
       · cases h
       obtain ⟨ch, hch, h⟩ := List.mem_filterMap.1 h
       exact .inr (.inr ⟨m, hm, ch, hch, congrArg Fix.ops (Fix.eq_of_mk?_eq_some h)⟩))

end ReferenceSite

/-- **The proposals for a call fit it.** For a call of a method or constructor that no
declaration matches, nothing is proposed when a candidate (one overload of that name for each
list of parameter types) takes the arguments as they are. Otherwise each proposed change of the
arguments uses each argument at most once, all of them arguments of the call, and passes a list
that a candidate accepts; and each proposed change of a candidate's parameters keeps each of
them at most once, keeps the varargs one last, and accepts the arguments. -/
theorem unresolvedProposals_fit_call {p : Project} {file : FileId} {pr : Problem}
    {t : SyntaxTree} {covering : NodeId} {c : Call}
    (hkind : pr.kind = .undefinedMethod ∨ pr.kind = .undefinedConstructor ∨
      pr.kind = .parameterMismatch)
    (ht : p.unit? file = some t) (hcov : pr.coveringNode t = some covering)
    (hc : ((ReferenceSite.mk p t file).invocation covering).bind (ReferenceSite.mk p t file).call =
      some c) :
    let cx : ReferenceSite := ⟨p, t, file⟩
    let b := p.bindings
    let tys := c.args.map (·.ty)
    ((∃ m ∈ cx.candidates c, (Shape.ofMethod b m).accepts b tys = true) →
        unresolvedProposals p file pr = []) ∧
    ∀ f ∈ unresolvedProposals p file pr,
      (∀ n ch, Operation.changeArguments n ch ∈ f.ops → ∃ m ∈ cx.candidates c,
        ch.kept.Nodup ∧ (∀ k ∈ ch.kept, k < c.args.length) ∧
        (Shape.ofMethod b m).accepts b (ch.types tys (Shape.ofMethod b m).params) = true) ∧
      (∀ m ch, Operation.changeSignature m ch ∈ f.ops → m ∈ cx.candidates c ∧
        (Shape.ofMethod b m).KeepsSlots ch.params ∧
        ((Shape.ofMethod b m).withSlots ch.params).accepts b tys = true) := by
  intro cx b tys
  have hprop : unresolvedProposals p file pr = cx.invocationProposals covering pr.kind := by
    unfold unresolvedProposals
    rw [ht]
    simp only
    rw [hcov]
    rcases hkind with h | h | h <;> simp [h, ProblemKind.isUnresolvedReference, cx]
  obtain ⟨hnone, hmem⟩ := @ReferenceSite.invocationProposals_of_call cx covering pr.kind c hc
  rw [hprop]
  refine ⟨hnone, fun f hf => ?_⟩
  rcases hmem f hf with ⟨stub, hops⟩ | ⟨m, hm, ch, hch, hops⟩ | ⟨m, hm, ch, hch, hops⟩
  · simp [hops]
  · refine ⟨fun n ch' h => ?_, fun m' ch' h => by simp [hops] at h⟩
    rw [hops, List.mem_singleton, Operation.changeArguments.injEq] at h
    obtain ⟨-, rfl⟩ := h
    exact ⟨m, hm, CallArgument.fits_of_mem_argumentChanges _ _ _ _ hch⟩
  · refine ⟨fun n ch' h => by simp [hops] at h, fun m' ch' h => ?_⟩
    rw [hops, List.mem_singleton, Operation.changeSignature.injEq] at h
    obtain ⟨rfl, rfl⟩ := h
    exact ⟨hm, CallArgument.fits_of_mem_signatureChanges _ _ _ _ hch⟩


/-- For `new T(5)`, with only `T()` declared, the proposed change of `T()` into `T(int)` keeps
no parameter of `T()` and takes the argument. -/
theorem unresolvedProposals_fit_call_new_T :
    ∃ t covering c, undeclaredConstructor.unit? ⟨"E.java"⟩ = some t ∧
      newTWithArgument.coveringNode t = some covering ∧
      ((ReferenceSite.mk undeclaredConstructor t ⟨"E.java"⟩).invocation covering).bind
        (ReferenceSite.mk undeclaredConstructor t ⟨"E.java"⟩).call = some c ∧
      (Shape.ofMethod undeclaredConstructor.bindings ⟨0⟩).KeepsSlots widenT.params ∧
      ((Shape.ofMethod undeclaredConstructor.bindings ⟨0⟩).withSlots widenT.params).accepts
        undeclaredConstructor.bindings (c.args.map (·.ty)) = true := by
  have ht := eq_some_getD_of_isSome
    (show (undeclaredConstructor.unit? ⟨"E.java"⟩).isSome = true by decide +kernel)
  have hcov := eq_some_getD_of_isSome (show (newTWithArgument.coveringNode
    ((undeclaredConstructor.unit? ⟨"E.java"⟩).getD default)).isSome = true by decide +kernel)
  have hc := eq_some_getD_of_isSome (show (((ReferenceSite.mk undeclaredConstructor
    ((undeclaredConstructor.unit? ⟨"E.java"⟩).getD default) ⟨"E.java"⟩).invocation
      ((newTWithArgument.coveringNode
        ((undeclaredConstructor.unit? ⟨"E.java"⟩).getD default)).getD default)).bind
    (ReferenceSite.mk undeclaredConstructor
      ((undeclaredConstructor.unit? ⟨"E.java"⟩).getD default) ⟨"E.java"⟩).call).isSome = true by
    decide +kernel)
  -- the last proposal changes `T()` into `T(int)`
  have hlast : ((unresolvedProposals undeclaredConstructor ⟨"E.java"⟩ newTWithArgument).getLast?.map
      (·.ops)) = some [.changeSignature ⟨0⟩ widenT] := by
    decide +kernel
  obtain ⟨f, hf, hops⟩ := Option.map_eq_some_iff.1 hlast
  have hm : Operation.changeSignature ⟨0⟩ widenT ∈ f.ops := hops ▸ List.mem_singleton_self _
  obtain ⟨-, hkeeps, hacc⟩ := ((unresolvedProposals_fit_call (.inr (.inl rfl)) ht hcov hc).2 f
    (List.mem_of_getLast? hf)).2 ⟨0⟩ widenT hm
  exact ⟨_, _, _, ht, hcov, hc, hkeeps, hacc⟩

end QuickFix
