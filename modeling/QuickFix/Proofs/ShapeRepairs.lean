import Mathlib.Data.List.TakeWhile
import QuickFix.Proofs.CallMatching

/-!
# Three repairs of a call, and what a shape accepts

A call that a shape does not accept may be near it in three ways, each found by its own greedy
walk: extra arguments to drop, missing parameters to fill, two arguments to exchange. The walks
are written differently (the first over the arguments, the second over the fixed parameters, the
third over pairs of places) but agree with acceptance:

* the shape accepts a call exactly when the walk for extra arguments drops none, and exactly when
  the walk for missing parameters misses none (`Shape.accepts_iff_extraArguments_eq_nil`,
  `Shape.accepts_iff_missingParameters_eq_nil`);
* each walk's answer is a repair: dropping the extra arguments, or putting a new argument of the
  parameter's type at each missing place (`insertAll`), or exchanging the two places found, gives
  a call the shape accepts (`Shape.accepts_insertAll_missingParameters` here, the others in
  `Proofs.ShapeMatching`).

The main statement, `Shape.repairs_agree`, gathers them for the shape of any method, with the
bounds that keep every look-up of the walks inside its list.
-/

namespace QuickFix

/-! ## Putting entries at given places -/

section Insert

variable {α : Type}

/-- Puts `ty p` at each place `p` of `ps`, in the order listed: with the places increasing, each
new entry ends at its own place and the old entries keep their order around them. -/
def insertAll (l : List α) (ps : List Nat) (ty : Nat → α) : List α :=
  ps.foldl (fun acc p => acc.insertIdx p (ty p)) l

theorem insertAll_nil (l : List α) (ty : Nat → α) : insertAll l [] ty = l := rfl

theorem insertAll_append_singleton (l : List α) (ps : List Nat) (p : Nat) (ty : Nat → α) :
    insertAll l (ps ++ [p]) ty = (insertAll l ps ty).insertIdx p (ty p) := by
  simp [insertAll, List.foldl_append]

theorem countP_lt_succ (l : List Nat) (n : Nat) :
    l.countP (· < n + 1) = l.countP (· < n) + l.count n := by
  induction l with
  | nil => rfl
  | cons x l ih =>
    simp only [List.countP_cons, List.count_cons, ih, beq_iff_eq, decide_eq_true_eq]
    by_cases hx : x = n
    · subst hx
      simp only [Nat.lt_succ_self, if_true, Nat.lt_irrefl, if_false]
      omega
    · by_cases hlt : x < n
      · simp only [hlt, show x < n + 1 by omega, hx, if_true, if_false]
        omega
      · simp only [hlt, show ¬x < n + 1 by omega, hx, if_false]
        omega

/-- Below a place past all of `ps`, every place of `ps` is counted. -/
theorem countP_lt_of_forall_lt {ps : List Nat} {n : Nat} (h : ∀ q ∈ ps, q < n) :
    ps.countP (· < n) = ps.length :=
  List.countP_eq_length.2 fun q hq => by simpa using h q hq

/-- A place at or past `p` is not counted below a smaller one. -/
theorem countP_append_singleton_of_le {ps : List Nat} {p j : Nat} (h : j ≤ p) :
    (ps ++ [p]).countP (· < j) = ps.countP (· < j) := by
  simp [List.countP_append, Nat.not_lt.2 h]

variable {l : List α}

theorem length_insertAll {ps : List Nat} (ty : Nat → α) (hs : ps.Pairwise (· < ·))
    (hfit : ∀ p ∈ ps, p ≤ l.length + ps.countP (· < p)) :
    (insertAll l ps ty).length = l.length + ps.length := by
  induction ps using List.reverseRecOn with
  | nil => rfl
  | append_singleton ps p ih =>
    obtain ⟨hs, -, hlt⟩ := List.pairwise_append.1 hs
    have hlt : ∀ q ∈ ps, q < p := fun q hq => hlt q hq p (List.mem_singleton_self p)
    have hfit' : ∀ q ∈ ps, q ≤ l.length + ps.countP (· < q) := fun q hq => by
      simpa [countP_append_singleton_of_le (Nat.le_of_lt (hlt q hq))] using
        hfit q (List.mem_append_left _ hq)
    have hp : p ≤ l.length + ps.length := by
      simpa [countP_append_singleton_of_le (Nat.le_refl p), countP_lt_of_forall_lt hlt] using
        hfit p (List.mem_append_right _ (List.mem_singleton_self p))
    rw [insertAll_append_singleton, List.length_insertIdx_of_le_length (by rw [ih hs hfit']; exact hp),
      ih hs hfit', List.length_append, List.length_singleton, Nat.add_assoc]

/-- **Where each entry lands.** With the places increasing, and each place at most the length of
the list it is put into, the entry at `j` is the new one when `j` is listed, and otherwise the old
entry that has as many listed places before it as `j` has. -/
theorem getElem?_insertAll {ps : List Nat} (ty : Nat → α) (hs : ps.Pairwise (· < ·))
    (hfit : ∀ p ∈ ps, p ≤ l.length + ps.countP (· < p)) (j : Nat) :
    (insertAll l ps ty)[j]? = if j ∈ ps then some (ty j) else l[j - ps.countP (· < j)]? := by
  induction ps using List.reverseRecOn generalizing j with
  | nil => simp [insertAll]
  | append_singleton ps p ih =>
    have hlen := length_insertAll ty hs hfit
    obtain ⟨hs, -, hlt⟩ := List.pairwise_append.1 hs
    have hlt : ∀ q ∈ ps, q < p := fun q hq => hlt q hq p (List.mem_singleton_self p)
    have hfit' : ∀ q ∈ ps, q ≤ l.length + ps.countP (· < q) := fun q hq => by
      simpa [countP_append_singleton_of_le (Nat.le_of_lt (hlt q hq))] using
        hfit q (List.mem_append_left _ hq)
    have hlen' := length_insertAll ty hs hfit'
    rw [insertAll_append_singleton]
    rcases Nat.lt_trichotomy j p with hj | rfl | hj
    · -- before the new place nothing moved
      have hjp : j ∉ [p] := by simpa using Nat.ne_of_lt hj
      rw [List.getElem?_insertIdx_of_lt hj, ih hs hfit', countP_append_singleton_of_le (Nat.le_of_lt hj)]
      simp [hjp]
    · -- the new entry itself
      have hp : j ≤ (insertAll l ps ty).length := by
        rw [List.length_append, List.length_singleton] at hlen
        rw [hlen']
        have := hfit j (List.mem_append_right _ (List.mem_singleton_self j))
        rw [countP_append_singleton_of_le (Nat.le_refl j), countP_lt_of_forall_lt hlt] at this
        exact this
      simp [List.getElem?_insertIdx_self, hp]
    · -- past it every entry moved one place on, and every listed place is before it
      have hj1 : j - 1 ∉ ps := fun h => by have := hlt _ h; omega
      have hjn : j ∉ ps ++ [p] := by
        simp only [List.mem_append, List.mem_singleton, not_or]
        exact ⟨fun h => by have := hlt _ h; omega, Nat.ne_of_gt hj⟩
      have hc : (ps ++ [p]).countP (· < j) = ps.length + 1 := by
        rw [List.countP_append, countP_lt_of_forall_lt fun q hq => Nat.lt_trans (hlt q hq) hj]
        simp [hj]
      have hc' : ps.countP (· < j - 1) = ps.length :=
        countP_lt_of_forall_lt fun q hq => by have := hlt q hq; omega
      rw [List.getElem?_insertIdx_of_gt hj, ih hs hfit', if_neg hj1, if_neg hjn, hc, hc']
      congr 1
      omega

end Insert

/-! ## Places kept and places listed -/

theorem length_keptPositions_add_countP {drop : List Nat} (hnd : drop.Nodup) (n : Nat) :
    (keptPositions n drop).length + drop.countP (· < n) = n := by
  induction n with
  | zero => simp [keptPositions]
  | succ n ih =>
    rw [countP_lt_succ]
    by_cases hn : n ∈ drop
    · rw [keptPositions_succ_of_mem hn, List.count_eq_one_of_mem hnd hn]
      omega
    · rw [keptPositions_succ_of_not_mem hn, List.count_eq_zero_of_not_mem hn, List.length_append,
        List.length_singleton]
      omega

theorem length_keptPositions_mono {n n' : Nat} (h : n ≤ n') (drop : List Nat) :
    (keptPositions n drop).length ≤ (keptPositions n' drop).length := by
  obtain ⟨d, rfl⟩ := Nat.exists_eq_add_of_le h
  simp [keptPositions, List.range_add, List.filter_append]

namespace Shape

variable (s : Shape) (b : Bindings)

theorem keptTypes_nil (tys : List TypeId) : keptTypes tys [] = tys := by
  have hall : keptPositions tys.length [] = List.range tys.length := by simp [keptPositions]
  rw [keptTypes, hall, map_getD_range]

/-! ## The shape of a method -/

/-- The shape of a method has a varargs type exactly when it has varargs. -/
theorem ofMethod_component_eq_none_iff {m : MethodId} :
    (ofMethod b m).component = none ↔ (ofMethod b m).varargs = false := by
  constructor
  · intro h
    by_contra hva
    have hpos := ofMethod_length_pos (Bool.not_eq_false _ ▸ hva)
    simp only [component, Bool.not_eq_false _ ▸ hva, if_true, List.getLast?_eq_none_iff] at h
    simp [h] at hpos
  · intro h
    simp [component, h]

/-! ## Accepted calls need no repair -/

/-- On arguments the shape accepts, the walk for extra arguments takes each one: after the first
`k`, the first `min k fixed` parameters are matched and nothing is dropped. -/
theorem foldl_dropStep_of_accepts (hva : s.component = none → s.varargs = false)
    {args : List TypeId} (h : s.accepts b args = true) {k : Nat} (hk : k ≤ args.length) :
    (args.take k).zipIdx.foldl (s.dropStep b) (0, []) = (min k s.fixed, []) := by
  obtain ⟨-, hlen, hfixed, hrest⟩ := (s.accepts_eq_true_iff b args).1 h
  have hfix := s.fixed_le_length
  induction k with
  | zero => simp
  | succ k ih =>
    have hk' : k < args.length := by omega
    rw [List.take_add_one, List.getElem?_eq_getElem hk', Option.toList_some, List.zipIdx_append,
      List.foldl_append, ih (by omega)]
    simp only [List.length_take, Nat.min_eq_left (Nat.le_of_lt hk'), Nat.zero_add, List.zipIdx_cons,
      List.zipIdx_nil, List.foldl_cons, List.foldl_nil]
    unfold dropStep
    by_cases hkf : k < s.fixed
    · -- the next fixed parameter takes the argument
      have hp : s.params[k]? = some (s.params.getD k default) := by
        simp [List.getElem?_eq_getElem (show k < s.params.length by omega)]
      have ha := hfixed k hkf
      rw [List.getD_eq_getElem?_getD, List.getElem?_eq_getElem hk', Option.getD_some] at ha
      simp only [Nat.min_eq_left (Nat.le_of_lt hkf), hkf, if_true, hp, ha]
      simp [Nat.min_eq_left (show k + 1 ≤ s.fixed by omega)]
    · -- past the fixed parameters the varargs one takes it
      obtain ⟨c, hc⟩ : ∃ c, s.component = some c := by
        cases hcomp : s.component with
        | none => have := hlen (hva hcomp); omega
        | some c => exact ⟨c, rfl⟩
      have ha : b.isAssignable args[k] c = true :=
        hrest c hc _ (List.mem_iff_getElem.2 ⟨k - s.fixed, by simp; omega,
          by simp [show s.fixed + (k - s.fixed) = k by omega]⟩)
      simp only [Nat.min_eq_right (Nat.le_of_not_lt hkf), Nat.lt_irrefl, if_false, hc,
        Option.map_some, Option.getD_some, ha, if_true]
      simp [Nat.min_eq_right (show s.fixed ≤ k + 1 by omega)]

theorem extraArguments_of_accepts (hva : s.component = none → s.varargs = false)
    {args : List TypeId} (h : s.accepts b args = true) : s.extraArguments b args = some [] := by
  have hle := ((s.accepts_eq_true_iff b args).1 h).1
  rw [extraArguments_eq]
  have := s.foldl_dropStep_of_accepts b hva h (Nat.le_refl args.length)
  rw [List.take_length] at this
  simp [this, Nat.min_eq_right hle]

/-- On arguments the shape accepts, the walk for missing parameters matches the first `k` fixed
parameters to the first `k` arguments. -/
theorem foldl_missStep_of_accepts {args : List TypeId} (h : s.accepts b args = true) {k : Nat}
    (hk : k ≤ s.fixed) : (List.range k).foldl (s.missStep b args) (0, []) = (k, []) := by
  obtain ⟨hle, -, hfixed, -⟩ := (s.accepts_eq_true_iff b args).1 h
  have hfix := s.fixed_le_length
  induction k with
  | zero => rfl
  | succ k ih =>
    rw [List.range_succ, List.foldl_append, ih (by omega), List.foldl_cons, List.foldl_nil]
    have ha := hfixed k (by omega)
    simp only [List.getD_eq_getElem?_getD, List.getElem?_eq_getElem (show k < args.length by omega),
      List.getElem?_eq_getElem (show k < s.params.length by omega), Option.getD_some] at ha
    simp only [missStep, List.getElem?_eq_getElem (show k < args.length by omega),
      List.getElem?_eq_getElem (show k < s.params.length by omega)]
    simp [ha]

theorem missingParameters_of_accepts (hva : s.component = none → s.varargs = false)
    {args : List TypeId} (h : s.accepts b args = true) : s.missingParameters b args = some [] := by
  obtain ⟨hle, hlen, -, hrest⟩ := (s.accepts_eq_true_iff b args).1 h
  rw [missingParameters_eq, s.foldl_missStep_of_accepts b h (Nat.le_refl _)]
  cases hc : s.component with
  | none => simp [hlen (hva hc)]
  | some c =>
    -- the varargs parameter takes every argument after the fixed ones
    have hall : (args.drop s.fixed).takeWhile (b.isAssignable · c) = args.drop s.fixed :=
      List.takeWhile_eq_self_iff.2 (hrest c hc)
    simp only [hall, List.length_drop]
    simp [Nat.add_sub_cancel' hle]

/-! ## Missing parameters -/

theorem missStep_snd (args : List TypeId) (st : Nat × List Nat) (k : Nat) :
    (s.missStep b args st k).2 = st.2 ∨ (s.missStep b args st k).2 = st.2 ++ [k] := by
  unfold missStep
  split
  · split
    · exact Or.inl rfl
    · exact Or.inr rfl
  · exact Or.inr rfl

/-- The walk lists the missing parameters in increasing order. -/
theorem pairwise_foldl_missStep (args : List TypeId) (k : Nat) :
    ((List.range k).foldl (s.missStep b args) (0, [])).2.Pairwise (· < ·) := by
  induction k with
  | zero => simp
  | succ k ih =>
    have hlt := (MissInv.run (s := s) (b := b) args k).missing_lt
    rw [List.range_succ, List.foldl_append, List.foldl_cons, List.foldl_nil]
    rcases s.missStep_snd b args ((List.range k).foldl (s.missStep b args) (0, [])) k with h | h <;>
      rw [h]
    · exact ih
    · refine List.pairwise_append.2 ⟨ih, List.pairwise_singleton _ _, fun a ha c hc => ?_⟩
      rw [List.mem_singleton] at hc
      exact hc ▸ hlt a ha

/-- **Filling the missing parameters gives an accepted call.** Putting at each missing place a
new argument of that parameter's type, the arguments that are there in order around them, gives
arguments the shape accepts. -/
theorem accepts_insertAll_missingParameters {tys : List TypeId} {missing : List Nat}
    (h : s.missingParameters b tys = some missing) :
    s.accepts b (insertAll tys missing (s.params.getD · default)) = true := by
  rw [missingParameters_eq] at h
  have hmiss := MissInv.run (s := s) (b := b) tys s.fixed
  have hsorted := s.pairwise_foldl_missStep b tys s.fixed
  generalize (List.range s.fixed).foldl (s.missStep b tys) (0, []) = st at h hmiss hsorted
  obtain ⟨a0, M⟩ := st
  simp only [beq_iff_eq, Option.ite_none_right_eq_some, Option.some.injEq] at h
  obtain ⟨hcheck, rfl⟩ := h
  simp only at hsorted
  have hnd : M.Nodup := hsorted.imp Nat.ne_of_lt
  have hMlt : ∀ q ∈ M, q < s.fixed := hmiss.missing_lt
  have harg : a0 = (keptPositions s.fixed M).length := hmiss.arg_eq
  -- the fixed places are the matched arguments and the missing ones
  have hfix : a0 + M.length = s.fixed := by
    rw [harg, ← countP_lt_of_forall_lt hMlt]
    exact length_keptPositions_add_countP hnd _
  have ha0 : a0 ≤ tys.length := by
    cases hc : s.component <;> simp only [hc] at hcheck <;> omega
  have hfit : ∀ p ∈ M, p ≤ tys.length + M.countP (· < p) := by
    intro p hp
    have h1 := length_keptPositions_add_countP hnd p
    have h2 := length_keptPositions_mono (Nat.le_of_lt (hMlt p hp)) M
    omega
  have hget := getElem?_insertAll (s.params.getD · default) hsorted hfit
  have hlen := length_insertAll (s.params.getD · default) hsorted hfit
  rw [accepts_eq_true_iff]
  refine ⟨by omega, fun hva => ?_, fun j hj => ?_, fun c hc x hx => ?_⟩
  · -- without varargs every argument went to a fixed parameter
    have hc : s.component = none := by simp [component, hva]
    simp only [hc] at hcheck
    omega
  · rw [List.getD_eq_getElem?_getD, hget j]
    split
    · exact Bindings.isAssignable_self b _
    · next hjM =>
      obtain ⟨a, ha, hassign⟩ := hmiss.matched j hj hjM
      have hk := length_keptPositions_add_countP hnd j
      rw [show j - M.countP (· < j) = (keptPositions j M).length by omega, ha]
      exact hassign
  · -- past the fixed places stand the arguments after the matched ones
    simp only [hc] at hcheck
    have hall : ∀ y ∈ tys.drop a0, b.isAssignable y c = true := by
      have hpre := List.takeWhile_prefix (l := tys.drop a0) (b.isAssignable · c)
      have heq := hpre.eq_of_length (by simp only [List.length_drop]; omega)
      exact List.takeWhile_eq_self_iff.1 heq
    obtain ⟨i, hi, rfl⟩ := List.mem_iff_getElem.1 hx
    refine hall _ (List.mem_iff_getElem?.2 ⟨i, ?_⟩)
    have hnot : s.fixed + i ∉ M := fun hm => by have := hMlt _ hm; omega
    have hcnt : M.countP (· < s.fixed + i) = M.length :=
      countP_lt_of_forall_lt fun q hq => by have := hMlt q hq; omega
    rw [List.getElem?_drop, ← List.getElem?_eq_getElem, List.getElem?_drop, hget, if_neg hnot, hcnt]
    congr 1
    omega

/-! ## Agreement -/

theorem accepts_iff_extraArguments_eq_nil (hva : s.component = none → s.varargs = false)
    (args : List TypeId) : s.accepts b args = true ↔ s.extraArguments b args = some [] :=
  ⟨s.extraArguments_of_accepts b hva, fun h => keptTypes_nil args ▸ s.accepts_keptTypes b h⟩

theorem accepts_iff_missingParameters_eq_nil (hva : s.component = none → s.varargs = false)
    (args : List TypeId) : s.accepts b args = true ↔ s.missingParameters b args = some [] :=
  ⟨s.missingParameters_of_accepts b hva, fun h => insertAll_nil args _ ▸
    s.accepts_insertAll_missingParameters b h⟩

/-- **The repairs of a call agree with acceptance.** For the shape of any method and any argument
types: the shape accepts them exactly when the walk for extra arguments drops none, exactly when
the walk for missing parameters misses none; dropping the extra arguments found, or putting at
each missing place (fixed ones, in increasing order) a new argument of that parameter's type, or
exchanging the two places a swap finds (fixed ones, the first before the second, in a call with
one argument per parameter), gives arguments the shape accepts. Every place these walks look up is
inside its list: a shape with varargs has a parameter, its fixed parameters are among its
parameters, an extra argument is an argument. -/
theorem repairs_agree (m : MethodId) (args : List TypeId) :
    let s := ofMethod b m
    (s.accepts b args = true ↔ s.extraArguments b args = some []) ∧
    (s.accepts b args = true ↔ s.missingParameters b args = some []) ∧
    (∀ extra, s.extraArguments b args = some extra →
      (∀ e ∈ extra, e < args.length) ∧ s.accepts b (keptTypes args extra) = true) ∧
    (∀ missing, s.missingParameters b args = some missing →
      missing.Pairwise (· < ·) ∧ (∀ q ∈ missing, q < s.fixed) ∧
        s.accepts b (insertAll args missing (s.params.getD · default)) = true) ∧
    (∀ i j, s.swap b args = some (i, j) → i < j ∧ j < s.fixed ∧ args.length = s.params.length ∧
      s.accepts b (swapAt args i j) = true) ∧
    (s.varargs = true → 0 < s.params.length) ∧ s.fixed ≤ s.params.length := by
  intro s
  have hva : s.component = none → s.varargs = false := (ofMethod_component_eq_none_iff b).1
  refine ⟨s.accepts_iff_extraArguments_eq_nil b hva args,
    s.accepts_iff_missingParameters_eq_nil b hva args, fun extra h => ⟨?_, s.accepts_keptTypes b h⟩,
    fun missing h => ⟨?_, s.lt_fixed_of_mem_missingParameters b h,
      s.accepts_insertAll_missingParameters b h⟩,
    fun i j h => s.accepts_swapAt_of_swap b h, ofMethod_length_pos, s.fixed_le_length⟩
  · rw [extraArguments_eq] at h
    have hinv := DropInv.run (s := s) (b := b) args
    generalize args.zipIdx.foldl (s.dropStep b) (0, []) = st at h hinv
    simp only [beq_iff_eq, Option.ite_none_right_eq_some, Option.some.injEq] at h
    exact h.2 ▸ hinv.drop_lt
  · rw [missingParameters_eq] at h
    have hsorted := s.pairwise_foldl_missStep b args s.fixed
    generalize (List.range s.fixed).foldl (s.missStep b args) (0, []) = st at h hsorted
    simp only [beq_iff_eq, Option.ite_none_right_eq_some, Option.some.injEq] at h
    exact h.2 ▸ hsorted

end Shape

end QuickFix
