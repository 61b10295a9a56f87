import Mathlib.Data.List.Induction
import Mathlib.Data.List.Nodup
import QuickFix.Fix.Unresolved.Shape
import QuickFix.Fix.Operation

/-!
# What a shape accepts, and the walks that bring a call near it

`Shape.accepts_eq_true_iff` reads acceptance position by position. The walks of `Shape` that
bring a call near a shape are folds; each gets a step function, an invariant that one step
keeps, and a run lemma by induction on the list walked:

* `Shape.DropInv`, for the walk that finds the extra arguments: the arguments it keeps are
  accepted (`Shape.accepts_keptTypes`);
* `Shape.MissInv`, for the walk that finds the missing parameters, and `Shape.AddInv`, for the
  argument list that puts a new argument at each of them: that list is accepted
  (`Shape.accepts_addSlots`);
* a swap that the exchanged shape accepts is accepted with the arguments exchanged
  (`Shape.accepts_swapAt_of_swap`).
-/

namespace QuickFix

theorem List.all_zip_take_iff {α β : Type} [Inhabited α] [Inhabited β] (f : α → β → Bool)
    (l : List α) (m : List β) (k : Nat) (hl : k ≤ l.length) (hm : k ≤ m.length) :
    (l.zip (m.take k)).all (fun x => f x.1 x.2) = true ↔
      ∀ j < k, f (l.getD j default) (m.getD j default) = true := by
  rw [List.all_eq_true]
  constructor
  · intro h j hj
    have hlen : j < (l.zip (m.take k)).length := by simp; omega
    have hj' : j < m.length := by omega
    simpa [List.getElem?_eq_getElem (show j < l.length by omega), List.getElem?_eq_getElem hj', hj]
      using h _ (List.getElem_mem hlen)
  · intro h x hx
    obtain ⟨j, hj, rfl⟩ := List.mem_iff_getElem.1 hx
    simp only [List.length_zip, List.length_take] at hj
    have := h j (by omega)
    simpa [List.getElem?_eq_getElem (show j < l.length by omega),
      List.getElem?_eq_getElem (show j < m.length by omega)] using this

/-! ## Positions kept -/

/-- The positions below `n` that are not listed. -/
def keptPositions (n : Nat) (drop : List Nat) : List Nat :=
  (List.range n).filter fun i => !drop.contains i

theorem keptPositions_succ {n : Nat} {drop : List Nat} (h : ∀ e ∈ drop, e < n) :
    keptPositions (n + 1) drop = keptPositions n drop ++ [n] := by
  have hn : n ∉ drop := fun hmem => Nat.lt_irrefl n (h n hmem)
  simp [keptPositions, List.range_succ, List.filter_append, hn]

theorem keptPositions_succ_drop {n : Nat} (drop : List Nat) :
    keptPositions (n + 1) (drop ++ [n]) = keptPositions n drop := by
  simp only [keptPositions, List.range_succ, List.filter_append]
  have hlast : List.filter (fun i => !(drop ++ [n]).contains i) [n] = [] := by simp
  rw [hlast, List.append_nil]
  refine List.filter_congr fun i hi => ?_
  have : i ≠ n := Nat.ne_of_lt (List.mem_range.1 hi)
  simp [this]

theorem nodup_keptPositions (n : Nat) (drop : List Nat) : (keptPositions n drop).Nodup :=
  (List.nodup_range).filter _

theorem lt_of_mem_keptPositions {n i : Nat} {drop : List Nat} (h : i ∈ keptPositions n drop) :
    i < n :=
  List.mem_range.1 (List.mem_filter.1 h).1

/-- Listing a position at or past `q` changes nothing below `q`. -/
theorem keptPositions_append_of_le {q k : Nat} (hqk : q ≤ k) (drop : List Nat) :
    keptPositions q (drop ++ [k]) = keptPositions q drop := by
  refine List.filter_congr fun i hi => ?_
  have : i ≠ k := Nat.ne_of_lt (Nat.lt_of_lt_of_le (List.mem_range.1 hi) hqk)
  simp [this]

theorem keptPositions_succ_of_mem {n : Nat} {drop : List Nat} (h : n ∈ drop) :
    keptPositions (n + 1) drop = keptPositions n drop := by
  simp [keptPositions, List.range_succ, List.filter_append, h]

theorem keptPositions_succ_of_not_mem {n : Nat} {drop : List Nat} (h : n ∉ drop) :
    keptPositions (n + 1) drop = keptPositions n drop ++ [n] := by
  simp [keptPositions, List.range_succ, List.filter_append, h]

namespace Shape

variable (s : Shape) (b : Bindings)

/-! ## Acceptance, position by position -/

theorem fixed_le_length : s.fixed ≤ s.params.length := by
  unfold fixed; split <;> omega

theorem fixed_eq_of_varargs {s : Shape} (h : s.varargs = true) : s.fixed = s.params.length - 1 := by
  simp [fixed, h]

theorem ofMethod_length_pos {b : Bindings} {m : MethodId} (h : (ofMethod b m).varargs = true) :
    0 < (ofMethod b m).params.length := by
  simp only [ofMethod, Bool.and_eq_true, Bool.not_eq_true', List.isEmpty_eq_false_iff] at h ⊢
  exact List.length_pos_iff.2 h.2

/-- **What a shape accepts**, position by position: at least the fixed parameters' number of
arguments, exactly that many unless it has varargs, each fixed parameter taking the argument at
its place, and the varargs parameter taking every argument after them. -/
theorem accepts_eq_true_iff (tys : List TypeId) :
    s.accepts b tys = true ↔ s.fixed ≤ tys.length ∧ (s.varargs = false → tys.length = s.fixed) ∧
      (∀ j < s.fixed, b.isAssignable (tys.getD j default) (s.params.getD j default) = true) ∧
      (∀ c, s.component = some c → ∀ x ∈ tys.drop s.fixed, b.isAssignable x c = true) := by
  have hfix := s.fixed_le_length
  unfold accepts
  by_cases hlen : tys.length < s.fixed
  · simp only [hlen]
    simp
    omega
  by_cases hva : s.varargs = false ∧ tys.length ≠ s.fixed
  · simp [hlen, hva]
  · have hcond : ¬(tys.length < s.fixed ∨ s.varargs = false ∧ tys.length ≠ s.fixed) := by
      rintro (h | h)
      · exact hlen h
      · exact hva h
    simp only [Bool.or_eq_true, decide_eq_true_eq, Bool.and_eq_true, Bool.not_eq_true',
      bne_iff_ne, ne_eq, hcond, if_false, Bool.and_eq_true,
      List.all_zip_take_iff (fun a p => b.isAssignable a p) tys s.params s.fixed (by omega) hfix]
    have hva' : s.varargs = false → tys.length = s.fixed := fun h => by
      by_contra hne
      exact hva ⟨h, hne⟩
    cases hc : s.component with
    | none => simpa [Nat.le_of_not_lt hlen] using fun _ => hva'
    | some c => simpa [Nat.le_of_not_lt hlen, List.all_eq_true] using fun _ _ => hva'

/-! ## Extra arguments -/

/-- One argument of the walk that finds the extra arguments: a fixed parameter still open takes
it if it can, the varargs parameter takes it after them, and otherwise it is extra. -/
def dropStep (st : Nat × List Nat) (x : TypeId × Nat) : Nat × List Nat :=
  let (consumed, param) :=
    if st.1 < s.fixed then
      match s.params[st.1]? with
      | some p => if b.isAssignable x.1 p then (true, st.1 + 1) else (false, st.1)
      | none => (false, st.1)
    else ((s.component.map (b.isAssignable x.1)).getD false, st.1)
  (param, if consumed then st.2 else st.2 ++ [x.2])

theorem extraArguments_eq (args : List TypeId) :
    s.extraArguments b args =
      let st := args.zipIdx.foldl (s.dropStep b) (0, [])
      if st.1 == s.fixed then some st.2 else none := by
  rfl

/-- The types of the arguments that are kept. -/
def keptTypes (tys : List TypeId) (drop : List Nat) : List TypeId :=
  (keptPositions tys.length drop).map (tys.getD · default)

/-- What the walk for extra arguments keeps after a prefix of the arguments: the open fixed
parameters come after those that took the kept arguments in order, and a kept argument past
them went to the varargs parameter. -/
structure DropInv (tys : List TypeId) (st : Nat × List Nat) : Prop where
  param_le : st.1 ≤ s.fixed
  drop_lt : ∀ e ∈ st.2, e < tys.length
  param_le_kept : st.1 ≤ (keptTypes tys st.2).length
  matched : ∀ j < st.1,
    b.isAssignable ((keptTypes tys st.2).getD j default) (s.params.getD j default) = true
  spread : ∀ j, st.1 ≤ j → j < (keptTypes tys st.2).length → st.1 = s.fixed ∧
    ∃ c, s.component = some c ∧ b.isAssignable ((keptTypes tys st.2).getD j default) c = true

theorem keptTypes_append_kept {tys : List TypeId} {drop : List Nat} (h : ∀ e ∈ drop, e < tys.length)
    (a : TypeId) : keptTypes (tys ++ [a]) drop = keptTypes tys drop ++ [a] := by
  rw [keptTypes, List.length_append, List.length_singleton, keptPositions_succ h, List.map_append]
  congr 1
  · refine List.map_congr_left fun i hi => ?_
    have := lt_of_mem_keptPositions hi
    simp [List.getElem?_append_left this]
  · simp

theorem keptTypes_append_drop (tys : List TypeId) (drop : List Nat) (a : TypeId) :
    keptTypes (tys ++ [a]) (drop ++ [tys.length]) = keptTypes tys drop := by
  rw [keptTypes, List.length_append, List.length_singleton, keptPositions_succ_drop]
  refine List.map_congr_left fun i hi => ?_
  have := lt_of_mem_keptPositions hi
  simp [List.getElem?_append_left this]

namespace DropInv

variable {s b}

theorem nil : s.DropInv b [] (0, []) where
  param_le := Nat.zero_le _
  drop_lt := by simp
  param_le_kept := Nat.zero_le _
  matched := by simp
  spread := by simp [keptTypes, keptPositions]

/-- An argument that no parameter takes is dropped. -/
theorem extra {tys : List TypeId} {param : Nat} {drop : List Nat} (h : s.DropInv b tys (param, drop))
    (a : TypeId) : s.DropInv b (tys ++ [a]) (param, drop ++ [tys.length]) := by
  have hkept := keptTypes_append_drop tys drop a
  refine ⟨h.param_le, fun e he => ?_, ?_, ?_, ?_⟩
  · rcases List.mem_append.1 he with he | he
    · have := h.drop_lt e he
      simp; omega
    · simp at he ⊢; omega
  · rw [hkept]; exact h.param_le_kept
  · rw [hkept]; exact h.matched
  · rw [hkept]; exact h.spread

/-- An argument taken by the next fixed parameter is kept. -/
theorem takeFixed {tys : List TypeId} {param : Nat} {drop : List Nat}
    (h : s.DropInv b tys (param, drop)) (hp : param < s.fixed)
    {a : TypeId} (ha : b.isAssignable a (s.params.getD param default) = true) :
    s.DropInv b (tys ++ [a]) (param + 1, drop) := by
  -- no kept argument went past the open fixed parameters yet
  have hK : (keptTypes tys drop).length = param := by
    have hle : param ≤ (keptTypes tys drop).length := h.param_le_kept
    by_contra hne
    have := (h.spread param (Nat.le_refl _) (by simp only; omega)).1
    omega
  have hkept := keptTypes_append_kept h.drop_lt a
  refine ⟨hp, fun e he => ?_, ?_, fun j hj => ?_, fun j hj hj' => ?_⟩
  · have := h.drop_lt e he
    simp; omega
  · simp [hkept, hK]
  · rw [hkept]
    rcases Nat.lt_succ_iff_lt_or_eq.1 hj with hj | rfl
    · simpa [List.getElem?_append_left (hK ▸ hj : j < (keptTypes tys drop).length)] using
        h.matched j hj
    · simpa [List.getElem?_append_right (Nat.le_of_eq hK), hK] using ha
  · simp [hkept, hK] at hj'
    omega

/-- An argument taken by the varargs parameter is kept. -/
theorem takeVarargs {tys : List TypeId} {param : Nat} {drop : List Nat}
    (h : s.DropInv b tys (param, drop)) (hp : param = s.fixed) {c a : TypeId}
    (hc : s.component = some c) (ha : b.isAssignable a c = true) :
    s.DropInv b (tys ++ [a]) (param, drop) := by
  have hkept := keptTypes_append_kept h.drop_lt a
  refine ⟨h.param_le, fun e he => ?_, ?_, fun j hj => ?_, fun j hj hj' => ?_⟩
  · have := h.drop_lt e he
    simp; omega
  · rw [hkept, List.length_append]
    exact Nat.le_trans h.param_le_kept (Nat.le_add_right _ _)
  · have hjK : j < (keptTypes tys drop).length := Nat.lt_of_lt_of_le hj h.param_le_kept
    simpa [hkept, List.getElem?_append_left hjK] using h.matched j hj
  · rw [hkept, List.length_append, List.length_singleton] at hj'
    rcases Nat.lt_succ_iff_lt_or_eq.1 hj' with hjK | rfl
    · simpa [hkept, List.getElem?_append_left hjK] using h.spread j hj hjK
    · exact ⟨hp, c, hc, by simpa [hkept] using ha⟩

/-- One argument of the walk keeps the invariant. -/
theorem step {tys : List TypeId} {st : Nat × List Nat} (h : s.DropInv b tys st) (a : TypeId) :
    s.DropInv b (tys ++ [a]) (s.dropStep b st (a, tys.length)) := by
  obtain ⟨param, drop⟩ := st
  unfold dropStep
  by_cases hp : param < s.fixed
  · rw [if_pos hp]
    cases hq : s.params[param]? with
    | none => exact h.extra a
    | some p =>
      by_cases ha : b.isAssignable a p = true
      · simp only [ha, if_true]
        exact h.takeFixed hp (by simpa [hq] using ha)
      · simp only [ha, Bool.false_eq_true, if_false]
        exact h.extra a
  · rw [if_neg hp]
    have hfix : param = s.fixed := Nat.le_antisymm h.param_le (Nat.le_of_not_lt hp)
    cases hc : s.component with
    | none => exact h.extra a
    | some c =>
      by_cases ha : b.isAssignable a c = true
      · simp only [Option.map_some, Option.getD_some, ha, if_true]
        exact h.takeVarargs hfix hc ha
      · simp only [Option.map_some, Option.getD_some, ha, Bool.false_eq_true, if_false]
        exact h.extra a

/-- The walk over all the arguments keeps the invariant. -/
theorem run (args : List TypeId) : s.DropInv b args (args.zipIdx.foldl (s.dropStep b) (0, [])) := by
  induction args using List.reverseRecOn with
  | nil => exact nil
  | append_singleton tys a ih =>
    rw [List.zipIdx_append, List.foldl_append]
    simpa using ih.step a

end DropInv

/-- **The arguments that are not extra are accepted.** When the walk finds the extra arguments,
the shape accepts the others in order. -/
theorem accepts_keptTypes {args : List TypeId} {drop : List Nat}
    (h : s.extraArguments b args = some drop) : s.accepts b (keptTypes args drop) = true := by
  rw [extraArguments_eq] at h
  have hinv : s.DropInv b args (args.zipIdx.foldl (s.dropStep b) (0, [])) := DropInv.run args
  generalize args.zipIdx.foldl (s.dropStep b) (0, []) = st at h hinv
  obtain ⟨param, kept⟩ := st
  simp only [beq_iff_eq, Option.ite_none_right_eq_some, Option.some.injEq] at h
  obtain ⟨hparam, rfl⟩ := h
  subst hparam
  have hle : s.fixed ≤ (keptTypes args kept).length := hinv.param_le_kept
  rw [accepts_eq_true_iff]
  refine ⟨hle, fun hva => ?_, hinv.matched, fun c hc x hx => ?_⟩
  · -- without varargs nothing goes past the fixed parameters
    by_contra hne
    obtain ⟨-, c, hc, -⟩ := hinv.spread s.fixed (Nat.le_refl _) (by simp only; omega)
    simp [component, hva] at hc
  · obtain ⟨j, hj, rfl⟩ := List.mem_iff_getElem.1 hx
    simp only [List.length_drop] at hj
    have hjK : s.fixed + j < (keptTypes args kept).length := by omega
    obtain ⟨-, c', hc', hx'⟩ := hinv.spread (s.fixed + j) (Nat.le_add_right _ _) hjK
    rw [hc, Option.some.injEq] at hc'
    subst hc'
    simpa [List.getElem?_eq_getElem hjK] using hx'

/-! ## Missing parameters -/

/-- One fixed parameter of the walk that finds the missing parameters: it takes the next argument
if it can, else it is missing. -/
def missStep (args : List TypeId) (st : Nat × List Nat) (param : Nat) : Nat × List Nat :=
  match args[st.1]?, s.params[param]? with
  | some a, some p => if b.isAssignable a p then (st.1 + 1, st.2) else (st.1, st.2 ++ [param])
  | _, _ => (st.1, st.2 ++ [param])

theorem missingParameters_eq (args : List TypeId) :
    s.missingParameters b args =
      let st := (List.range s.fixed).foldl (s.missStep b args) (0, [])
      let arg := match s.component with
        | some c => st.1 + ((args.drop st.1).takeWhile (b.isAssignable · c)).length
        | none => st.1
      if arg == args.length then some st.2 else none := by
  rfl

/-- What the walk for missing parameters keeps after the first `k` fixed parameters: the
parameters that are not missing took the first arguments in order, each the one after the
previous. -/
structure MissInv (args : List TypeId) (k : Nat) (st : Nat × List Nat) : Prop where
  arg_eq : st.1 = (keptPositions k st.2).length
  missing_lt : ∀ q ∈ st.2, q < k
  matched : ∀ q < k, q ∉ st.2 → ∃ a, args[(keptPositions q st.2).length]? = some a ∧
    b.isAssignable a (s.params.getD q default) = true

namespace MissInv

variable {s b}

theorem zero (args : List TypeId) : s.MissInv b args 0 (0, []) where
  arg_eq := rfl
  missing_lt := by simp
  matched := by simp

theorem step {args : List TypeId} {k : Nat} {st : Nat × List Nat} (h : s.MissInv b args k st) :
    s.MissInv b args (k + 1) (s.missStep b args st k) := by
  obtain ⟨arg, miss⟩ := st
  have hmiss : ∀ q ∈ miss, q < k := h.missing_lt
  -- the parameter is missing
  have missing : s.MissInv b args (k + 1) (arg, miss ++ [k]) := by
    refine ⟨?_, fun q hq => ?_, fun q hq hqm => ?_⟩
    · rw [keptPositions_succ_drop]; exact h.arg_eq
    · rcases List.mem_append.1 hq with hq | hq
      · exact Nat.lt_succ_of_lt (hmiss q hq)
      · simp at hq; omega
    · have hqk : q < k := by
        rcases Nat.lt_succ_iff_lt_or_eq.1 hq with hq | rfl
        · exact hq
        · simp at hqm
      rw [keptPositions_append_of_le (Nat.le_of_lt hqk)]
      exact h.matched q hqk (fun hm => hqm (List.mem_append_left _ hm))
  unfold missStep
  split
  · next a p ha hp =>
    split
    · -- the parameter takes the next argument
      next hap =>
      refine ⟨?_, fun q hq => Nat.lt_succ_of_lt (hmiss q hq), fun q hq hqm => ?_⟩
      · have : arg = (keptPositions k miss).length := h.arg_eq
        simp [keptPositions_succ hmiss, this]
      · rcases Nat.lt_succ_iff_lt_or_eq.1 hq with hq | rfl
        · exact h.matched q hq hqm
        · have : arg = (keptPositions q miss).length := h.arg_eq
          exact ⟨a, this ▸ ha, by simpa [hp] using hap⟩
    · exact missing
  · exact missing

theorem run (args : List TypeId) (k : Nat) :
    s.MissInv b args k ((List.range k).foldl (s.missStep b args) (0, [])) := by
  induction k with
  | zero => exact zero args
  | succ k ih =>
    rw [List.range_succ, List.foldl_append]
    exact ih.step

end MissInv

/-- The missing parameters are fixed ones. -/
theorem lt_fixed_of_mem_missingParameters {tys : List TypeId} {missing : List Nat}
    (h : s.missingParameters b tys = some missing) : ∀ q ∈ missing, q < s.fixed := by
  rw [missingParameters_eq] at h
  have hmiss : s.MissInv b tys s.fixed ((List.range s.fixed).foldl (s.missStep b tys) (0, [])) :=
    MissInv.run tys s.fixed
  generalize (List.range s.fixed).foldl (s.missStep b tys) (0, []) = st at h hmiss
  obtain ⟨a0, M⟩ := st
  simp only [beq_iff_eq, Option.ite_none_right_eq_some, Option.some.injEq] at h
  obtain ⟨-, rfl⟩ := h
  exact hmiss.missing_lt

end Shape

/-! ## Argument lists that fill in the missing parameters -/

/-- The position an argument slot passes, if it passes an argument the call has. -/
def ArgumentSlot.existing? : ArgumentSlot → Option Nat
  | .existing k => some k
  | .new _ => none

/-- The type a slot passes at a place of the new argument list: an argument the call has its own
type, a new argument the type of the parameter at that place. -/
def ArgumentSlot.type (args params : List TypeId) (p : Nat) : ArgumentSlot → TypeId
  | .existing k => args.getD k default
  | .new _ => params.getD p default

/-- The types a list of argument slots passes. -/
def slotTypes (args params : List TypeId) (slots : List ArgumentSlot) : List TypeId :=
  slots.zipIdx.map fun x => x.1.type args params x.2

theorem length_slotTypes (args params : List TypeId) (slots : List ArgumentSlot) :
    (slotTypes args params slots).length = slots.length := by
  simp [slotTypes]

theorem getElem?_slotTypes (args params : List TypeId) (slots : List ArgumentSlot) (j : Nat) :
    (slotTypes args params slots)[j]? = slots[j]?.map (·.type args params j) := by
  simp [slotTypes, List.getElem?_zipIdx, Function.comp_def]

/-- Arguments the call has, put after other slots, pass their own types wherever they stand. -/
theorem slotTypes_append_existing (args params : List TypeId) (slots : List ArgumentSlot)
    (ks : List Nat) :
    slotTypes args params (slots ++ ks.map .existing) =
      slotTypes args params slots ++ ks.map (args.getD · default) := by
  simp only [slotTypes, List.zipIdx_append, List.map_append]
  congr 1
  generalize 0 + slots.length = i
  induction ks generalizing i with
  | nil => rfl
  | cons k ks ih =>
    rw [List.map_cons, List.zipIdx_cons, List.map_cons, List.map_cons, ih (i + 1)]
    rfl

theorem Bindings.isAssignable_self (b : Bindings) (t : TypeId) : b.isAssignable t t = true := by
  simp [Bindings.isAssignable]

theorem slotTypes_map_existing (tys params : List TypeId) (ks : List Nat) :
    slotTypes tys params (ks.map .existing) = ks.map (tys.getD · default) := by
  simpa [slotTypes] using slotTypes_append_existing tys params [] ks

theorem filterMap_existing?_map_existing (ks : List Nat) :
    (ks.map ArgumentSlot.existing).filterMap ArgumentSlot.existing? = ks := by
  simp [List.filterMap_map, Function.comp_def, ArgumentSlot.existing?]

namespace Shape

variable (s : Shape) (b : Bindings)

/-- One parameter of the argument list that adds the missing arguments: a new argument for a
missing parameter, all the remaining arguments for the varargs one, and the next argument for
any other. -/
def addStep (missing : List Nat) (name : Nat → String) (n : Nat) (st : List ArgumentSlot × Nat)
    (param : Nat) : List ArgumentSlot × Nat :=
  if missing.contains param then (st.1 ++ [.new (name param)], st.2)
  else if s.varargs && param + 1 == s.params.length then
    (st.1 ++ ((List.range n).filter (st.2 ≤ ·)).map .existing, n)
  else (st.1 ++ [.existing st.2], st.2 + 1)

/-- The argument list after the first `p` fixed parameters: a new argument at each missing one,
and the arguments in order at the others. -/
structure AddInv (missing : List Nat) (name : Nat → String) (p : Nat)
    (st : List ArgumentSlot × Nat) : Prop where
  next_eq : st.2 = (keptPositions p missing).length
  length_eq : st.1.length = p
  slot : ∀ j < p, st.1[j]? = some
    (if j ∈ missing then .new (name j) else .existing (keptPositions j missing).length)
  kept_eq : st.1.filterMap ArgumentSlot.existing? = List.range st.2

namespace AddInv

variable {s}

theorem step {missing : List Nat} {name : Nat → String} {n p : Nat} {st : List ArgumentSlot × Nat}
    (h : AddInv missing name p st) (hp : p < s.fixed) :
    AddInv missing name (p + 1) (s.addStep missing name n st p) := by
  obtain ⟨acc, next⟩ := st
  have hlen : acc.length = p := h.length_eq
  have hnext : next = (keptPositions p missing).length := h.next_eq
  have hkept : acc.filterMap ArgumentSlot.existing? = List.range next := h.kept_eq
  unfold addStep
  by_cases hm : p ∈ missing
  · simp only [List.contains_iff_mem, hm, if_true]
    refine ⟨by simpa [keptPositions_succ_of_mem hm] using hnext, by simp [hlen], fun j hj => ?_,
      by simp [List.filterMap_append, hkept, ArgumentSlot.existing?]⟩
    rcases Nat.lt_succ_iff_lt_or_eq.1 hj with hj | rfl
    · simpa [List.getElem?_append_left (hlen ▸ hj)] using h.slot j hj
    · simp [hlen, hm]
  · -- a fixed parameter is never the varargs one
    have hva : (s.varargs && p + 1 == s.params.length) = false := by
      unfold fixed at hp
      cases hv : s.varargs
      · simp
      · simp [hv] at hp ⊢; omega
    simp only [List.contains_iff_mem, hm, if_false, hva, Bool.false_eq_true]
    refine ⟨by simp [keptPositions_succ_of_not_mem hm, hnext], by simp [hlen], fun j hj => ?_,
      by simp [hkept, ArgumentSlot.existing?, List.range_succ]⟩
    rcases Nat.lt_succ_iff_lt_or_eq.1 hj with hj | rfl
    · simpa [List.getElem?_append_left (hlen ▸ hj)] using h.slot j hj
    · simp [hlen, hm, hnext]

theorem run (missing : List Nat) (name : Nat → String) (n : Nat) {p : Nat} (hp : p ≤ s.fixed) :
    AddInv missing name p ((List.range p).foldl (s.addStep missing name n) ([], 0)) := by
  induction p with
  | zero => exact ⟨rfl, rfl, by simp, rfl⟩
  | succ p ih =>
    rw [List.range_succ, List.foldl_append]
    exact (ih (Nat.le_of_succ_le hp)).step hp

end AddInv

theorem accepts_addSlots {tys : List TypeId} {missing : List Nat}
    (hM : s.missingParameters b tys = some missing) (name : Nat → String) :
    let slots := ((List.range s.params.length).foldl (s.addStep missing name tys.length) ([], 0)).1
    s.accepts b (slotTypes tys s.params slots) = true ∧
      (slots.filterMap ArgumentSlot.existing?).Nodup ∧
      ∀ k ∈ slots.filterMap ArgumentSlot.existing?, k < tys.length := by
  intro slots
  rw [missingParameters_eq] at hM
  have hmiss : s.MissInv b tys s.fixed ((List.range s.fixed).foldl (s.missStep b tys) (0, [])) :=
    MissInv.run tys s.fixed
  generalize (List.range s.fixed).foldl (s.missStep b tys) (0, []) = st at hM hmiss
  obtain ⟨a0, M⟩ := st
  simp only [beq_iff_eq, Option.ite_none_right_eq_some, Option.some.injEq] at hM
  obtain ⟨hcheck, rfl⟩ := hM
  have ha0 : a0 = (keptPositions s.fixed M).length := hmiss.arg_eq
  have hadd := AddInv.run M name tys.length (Nat.le_refl s.fixed)
  generalize hst : (List.range s.fixed).foldl (s.addStep M name tys.length) ([], 0) = st at hadd
  obtain ⟨acc, next⟩ := st
  have hnext : next = a0 := ha0 ▸ hadd.next_eq
  have hacc : acc.length = s.fixed := hadd.length_eq
  have hkept : acc.filterMap ArgumentSlot.existing? = List.range next := hadd.kept_eq
  -- the slot of each fixed parameter passes a type the parameter takes: a new argument the
  -- parameter's own type, an argument of the call the one matched to it
  have hfixed : ∀ j < s.fixed, b.isAssignable ((slotTypes tys s.params acc).getD j default)
      (s.params.getD j default) = true := by
    intro j hj
    have hslot : acc[j]? = _ := hadd.slot j hj
    rw [List.getD_eq_getElem?_getD, getElem?_slotTypes, hslot, Option.map_some, Option.getD_some]
    split
    · exact Bindings.isAssignable_self b _
    · next hjm =>
      obtain ⟨a, ha, hassign⟩ := hmiss.matched j hj hjm
      simpa [ArgumentSlot.type, ha] using hassign
  have hlenT : (slotTypes tys s.params acc).length = s.fixed := by rw [length_slotTypes, hacc]
  cases hva : s.varargs
  · -- without varargs the fixed parameters are all of them, and they took every argument
    have hlen : s.params.length = s.fixed := by simp [fixed, hva]
    have hcomp : s.component = none := by simp [component, hva]
    have hslots : slots = acc := by simp only [slots, hlen, hst]
    simp only [hcomp] at hcheck
    rw [hslots, accepts_eq_true_iff, hkept, hlenT]
    refine ⟨⟨Nat.le_refl _, fun _ => rfl, hfixed, by simp [hcomp]⟩, List.nodup_range,
      fun k hk => ?_⟩
    rw [List.mem_range] at hk
    omega
  · by_cases hlen0 : s.params.length = 0
    · -- a varargs shape without parameters passes nothing and takes nothing
      have hfix0 : s.fixed = 0 := by simp [fixed, hlen0]
      have hcomp : s.component = none := by simp [component, hva, List.eq_nil_of_length_eq_zero hlen0]
      have hslots : slots = [] := by simp only [slots, hlen0, List.range_zero, List.foldl_nil]
      simp only [hcomp] at hcheck
      rw [hslots, accepts_eq_true_iff]
      refine ⟨⟨by simp [hfix0], by simp [hva], by simp [hfix0], by simp [hcomp]⟩, by simp, by simp⟩
    have hlen : s.params.length = s.fixed + 1 := by simp [fixed, hva]; omega
    obtain ⟨c, hc⟩ : ∃ c, s.component = some c := by
      cases hl : s.params.getLast? with
      | none => exact absurd (List.getLast?_eq_none_iff.1 hl) fun h => hlen0 (by simp [h])
      | some c => exact ⟨c, by simp [component, hva, hl]⟩
    simp only [hc] at hcheck
    -- the arguments after the matched ones all go to the varargs parameter
    have hall : ∀ x ∈ tys.drop a0, b.isAssignable x c = true := by
      have hpre : (tys.drop a0).takeWhile (fun x => b.isAssignable x c) <+: tys.drop a0 :=
        List.takeWhile_prefix _
      have heq := hpre.eq_of_length (by simp only [List.length_drop]; omega)
      intro x hx
      rw [← heq] at hx
      exact List.all_eq_true.1 List.all_takeWhile x hx
    have hfixM : s.fixed ∉ M := fun h => Nat.lt_irrefl _ (hmiss.missing_lt _ h)
    have hslots : slots = acc ++ ((List.range tys.length).filter (next ≤ ·)).map .existing := by
      simp only [slots, hlen, List.range_succ, List.foldl_append, hst, List.foldl_cons,
        List.foldl_nil, addStep, List.contains_iff_mem, hfixM, if_false, hva, beq_self_eq_true,
        Bool.and_self, if_true]
    have hpast : ∀ x ∈ ((List.range tys.length).filter (next ≤ ·)).map (tys.getD · default),
        b.isAssignable x c = true := by
      intro x hx
      obtain ⟨k, hk, rfl⟩ := List.mem_map.1 hx
      simp only [List.mem_filter, List.mem_range, decide_eq_true_eq] at hk
      refine hall _ (List.mem_iff_getElem.2 ⟨k - a0, by simp; omega, ?_⟩)
      simp [List.getElem?_eq_getElem hk.1, show a0 + (k - a0) = k by omega]
    have hkept' : (acc ++ ((List.range tys.length).filter (next ≤ ·)).map ArgumentSlot.existing).filterMap
        ArgumentSlot.existing? = List.range next ++ (List.range tys.length).filter (next ≤ ·) := by
      simp [List.filterMap_append, hkept, ArgumentSlot.existing?, Function.comp_def]
    rw [hslots, slotTypes_append_existing, accepts_eq_true_iff, hkept']
    refine ⟨⟨by simp [hlenT], fun h => absurd h (by simp [hva]), fun j hj => ?_,
      fun c' hc' x hx => ?_⟩, ?_, fun k hk => ?_⟩
    · have hj' : j < (slotTypes tys s.params acc).length := hlenT ▸ hj
      simpa [List.getElem?_append_left hj'] using hfixed j hj
    · rw [hc, Option.some.injEq] at hc'
      subst hc'
      rw [List.drop_left' hlenT] at hx
      exact hpast x hx
    · refine List.nodup_append.2 ⟨List.nodup_range, List.nodup_range.filter _, ?_⟩
      intro x hx y hy hxy
      simp only [List.mem_range, List.mem_filter, decide_eq_true_eq] at hx hy
      omega
    · simp only [List.mem_append, List.mem_range, List.mem_filter, decide_eq_true_eq] at hk
      omega

end Shape

/-! ## Swapping two places -/

section Swap

variable {α : Type}

theorem length_swapAt (l : List α) (i j : Nat) : (swapAt l i j).length = l.length := by
  unfold swapAt
  split <;> simp

/-- Exchanging two entries: the entry at `j` is the old one at `i`, and the other way round. -/
theorem getElem?_swapAt {l : List α} {i j : Nat} (hi : i < l.length) (hj : j < l.length)
    (q : Nat) : (swapAt l i j)[q]? = l[if q = j then i else if q = i then j else q]? := by
  unfold swapAt
  rw [List.getElem?_eq_getElem hi, List.getElem?_eq_getElem hj]
  by_cases hqj : q = j
  · subst hqj
    simp [hi, hj]
  · by_cases hqi : q = i
    · subst hqi
      simp [hqj, Ne.symm hqj, hi, List.getElem?_eq_getElem hj]
    · simp [Ne.symm hqj, Ne.symm hqi, hqj, hqi]

theorem map_swapAt {β : Type} (f : α → β) (l : List α) (i j : Nat) :
    (swapAt l i j).map f = swapAt (l.map f) i j := by
  unfold swapAt
  simp only [List.getElem?_map]
  cases l[i]? <;> cases l[j]? <;> simp [List.map_set]

theorem mem_of_mem_swapAt {l : List α} {i j : Nat} {x : α} (h : x ∈ swapAt l i j) : x ∈ l := by
  unfold swapAt at h
  split at h
  · next a c ha hc =>
    rcases List.mem_or_eq_of_mem_set h with h | rfl
    · rcases List.mem_or_eq_of_mem_set h with h | rfl
      · exact h
      · exact List.mem_of_getElem? hc
    · exact List.mem_of_getElem? ha
  · exact h

theorem nodup_swapAt_range {n i j : Nat} (hi : i < n) (hj : j < n) :
    (swapAt (List.range n) i j).Nodup := by
  rw [List.nodup_iff_getElem?_ne_getElem?]
  intro p q hpq hq
  have hp : p < n := by rw [length_swapAt, List.length_range] at hq; omega
  rw [length_swapAt, List.length_range] at hq
  rw [getElem?_swapAt (by simpa) (by simpa), getElem?_swapAt (by simpa) (by simpa)]
  split_ifs <;> simp [*] <;> omega

end Swap

namespace Shape

variable (s : Shape) (b : Bindings)

/-- Exchanging two places before the varargs one leaves the varargs type alone. -/
theorem component_swapped {i j : Nat} (hi : i < s.fixed) (hj : j < s.fixed) :
    (s.swapped i j).component = s.component := by
  have hfix := s.fixed_le_length
  unfold component swapped
  by_cases hva : s.varargs = true
  · have hlen : s.fixed + 1 = s.params.length := by unfold fixed at hi ⊢; simp [hva] at hi ⊢; omega
    simp only [hva, if_true, List.getLast?_eq_getElem?, length_swapAt]
    rw [getElem?_swapAt (by omega) (by omega)]
    congr 1
    split_ifs <;> omega
  · simp [hva]

theorem fixed_swapped (i j : Nat) : (s.swapped i j).fixed = s.fixed := by
  simp [fixed, swapped, length_swapAt]

/-- **A swap that the exchanged shape accepts is accepted with the arguments exchanged.** -/
theorem accepts_swapAt_of_swap {tys : List TypeId} {i j : Nat} (h : s.swap b tys = some (i, j)) :
    i < j ∧ j < s.fixed ∧ tys.length = s.params.length ∧ s.accepts b (swapAt tys i j) = true := by
  unfold swap at h
  split at h
  · cases h
  next hlen =>
  have hlen : tys.length = s.params.length := by simpa using hlen
  have hacc := List.find?_some h
  have hmem := List.mem_of_find?_eq_some h
  simp only [List.mem_flatMap, List.mem_range, List.mem_map, List.mem_filter,
    decide_eq_true_eq, Prod.mk.injEq] at hmem
  obtain ⟨i', hi, j', ⟨hj, hij⟩, rfl, rfl⟩ := hmem
  refine ⟨hij, hj, hlen, ?_⟩
  have hi' : i' < tys.length := by have := s.fixed_le_length; omega
  have hj' : j' < tys.length := by have := s.fixed_le_length; omega
  have hpi : i' < s.params.length := hlen ▸ hi'
  have hpj : j' < s.params.length := hlen ▸ hj'
  rw [accepts_eq_true_iff] at hacc ⊢
  rw [fixed_swapped, component_swapped s hi hj] at hacc
  obtain ⟨h1, h2, h3, h4⟩ := hacc
  refine ⟨by rw [length_swapAt]; exact h1, fun hva => by rw [length_swapAt]; exact h2 hva,
    fun q hq => ?_, fun c hc x hx => ?_⟩
  · -- the argument now at `q` sat at the exchanged place, whose parameter is the one at `q`
    have hne : i' ≠ j' := Nat.ne_of_lt hij
    by_cases hqj : q = j'
    · subst hqj
      simpa [swapped, getElem?_swapAt hpi hpj, getElem?_swapAt hi' hj', hne] using h3 i' hi
    · by_cases hqi : q = i'
      · subst hqi
        simpa [swapped, getElem?_swapAt hpi hpj, getElem?_swapAt hi' hj', hne] using h3 j' hj
      · simpa [swapped, getElem?_swapAt hpi hpj, getElem?_swapAt hi' hj', hqj, hqi] using h3 q hq
  · -- past the fixed places nothing moved
    have hdrop : (swapAt tys i' j').drop s.fixed = tys.drop s.fixed := by
      refine List.ext_getElem? fun q => ?_
      rw [List.getElem?_drop, List.getElem?_drop, getElem?_swapAt hi' hj']
      congr 1
      split_ifs <;> omega
    exact h4 c hc x (hdrop ▸ hx)

end Shape

end QuickFix
