import QuickFix.Proofs.SessionWalk
import QuickFix.Proofs.NormalFormApply

/-!
# Finishing an edit session

`EditSession.finish` sorts the edits that the walk collects into the session's edit groups, one
group after another, and normalises the list that results. When no raw insertion and no import
is planned, the groups hold exactly the walk's edits, in another order
(`finish_edits_perm`); when those edits have pairwise different ranges, the order does not
matter: normalising keeps each edit once (`normalize_perm_of_distinct`) and applying them gives
the same text in every order (`applyEdits_perm_of_distinct`).
-/

namespace QuickFix

/-! ### Edits with pairwise different ranges -/

section Distinct

variable {es es' N : List TextEdit}

/-- Edits sorted by range are the same list whatever order they were given in, when no two share
a range. -/
theorem mergeSort_eq_of_perm (hp : es.Perm es') (hd : es.Pairwise fun a b => a.range ≠ b.range) :
    (es.mergeSort fun a b => a.range.le b.range) = es'.mergeSort fun a b => a.range.le b.range := by
  have hA := List.mergeSort_perm es fun a b => a.range.le b.range
  have hB := List.mergeSort_perm es' fun a b => a.range.le b.range
  refine List.Perm.eq_of_pairwise (fun a b ha hb hab hba => ?_)
    (List.pairwise_mergeSort rangeLe_trans rangeLe_total es)
    (List.pairwise_mergeSort rangeLe_trans rangeLe_total es') ((hA.trans hp).trans hB.symm)
  -- two edits in order both ways have one range, so they are one edit
  have : Std.Symm fun a b : TextEdit => a.range ≠ b.range := ⟨fun _ _ h h' => h h'.symm⟩
  by_contra hne
  exact hd.forall (hA.mem_iff.1 ha) (hp.mem_iff.2 (hB.mem_iff.1 hb)) hne
    (Range.eq_of_le_of_le hab hba)

/-- Edits with pairwise different ranges apply to the same text in every order. -/
theorem applyEdits_perm_of_distinct (hp : es.Perm es')
    (hd : es.Pairwise fun a b => a.range ≠ b.range)
    (hr : ∀ e ∈ es, e.range.start ≤ e.range.stop) (t : String) (out : String) :
    applyEdits t es = .ok out ↔ applyEdits t es' = .ok out := by
  have hr' : ∀ e ∈ es', e.range.start ≤ e.range.stop := fun e he => hr e (hp.mem_iff.2 he)
  by_cases hfit : ∀ e ∈ es, Fits t.toList e
  · have hfit' : ∀ e ∈ es', Fits t.toList e := fun e he => hfit e (hp.mem_iff.2 he)
    rw [applyEdits_eq_map_applySorted hfit, applyEdits_eq_map_applySorted hfit',
      mergeSort_eq_of_perm hp hd]
  · -- an edit that does not fit stops both
    constructor
    · intro h
      exact absurd (applicable_of_applyEdits_eq_ok hr h).1 hfit
    · intro h
      exact absurd (fun e he => (applicable_of_applyEdits_eq_ok hr' h).1 e (hp.mem_iff.1 he)) hfit

/-- Edits with pairwise different ranges that apply to a text write the same text in every
order. -/
theorem applyBackToFront_perm_of_distinct (hp : es.Perm es')
    (hd : es.Pairwise fun a b => a.range ≠ b.range) (hr : ∀ e ∈ es, e.range.start ≤ e.range.stop)
    (t : String) (happ : Applicable t.toList es) :
    applyBackToFront t es = applyBackToFront t es' := by
  have hr' : ∀ e ∈ es', e.range.start ≤ e.range.stop := fun e he => hr e (hp.mem_iff.2 he)
  have happ' : Applicable t.toList es' :=
    ⟨fun e he => happ.1 e (hp.mem_iff.2 he), hp.pairwise happ.2 fun h hc => h (conflict_symm hc)⟩
  have h₁ := applyEdits_eq_of_applicable t es hr happ
  have h₂ := applyEdits_eq_of_applicable t es' hr' happ'
  rw [(applyEdits_perm_of_distinct hp hd hr t _).1 h₁] at h₂
  exact Except.ok.inj h₂

/-- Edits that pairwise do not conflict are normalised. -/
theorem normalize_eq_ok_of_pairwise (hr : ∀ e ∈ es, e.range.start ≤ e.range.stop)
    (hpw : es.Pairwise fun a b => ¬ Conflict a b) : ∃ N, normalize es = .ok N := by
  cases h : normalize es with
  | ok N => exact ⟨N, rfl⟩
  | error err =>
    obtain ⟨a, ha, b, hb, -, hne, hc⟩ := (normalize_fails_iff hr).1 ⟨err, h⟩
    have : Std.Symm fun a b : TextEdit => ¬ Conflict a b := ⟨fun _ _ h hc => h (conflict_symm hc)⟩
    exact absurd hc (hpw.forall ha hb hne)

open TextEdit in
/-- Normalising edits with pairwise different targets keeps each of them once. -/
theorem normalize_perm_of_distinct (hr : ∀ e ∈ es, e.range.start ≤ e.range.stop)
    (hd : es.Pairwise fun a b => a.target ≠ b.target) (hN : normalize es = .ok N) : N.Perm es := by
  obtain ⟨hsorted, -, htargets, htext, -⟩ := normalize_eq_ok_spec hr hN
  have : Std.Symm fun a b : TextEdit => a.target ≠ b.target := ⟨fun _ _ h h' => h h'.symm⟩
  -- one edit of `es` per target
  have huniq : ∀ a ∈ es, ∀ b ∈ es, a.target = b.target → a = b := fun a ha b hb hab => by
    by_contra hne
    exact hd.forall ha hb hne hab
  have hmem : ∀ o ∈ N, o ∈ es := by
    intro o ho
    obtain ⟨e, he, het⟩ := (htargets o.target).1 ⟨o, ho, rfl⟩
    -- the run of the target is `e` alone, so its merged text is the text of `e`
    have hsame : ∀ x ∈ targetTexts es o.target, x = e.text := by
      intro x hx
      obtain ⟨y, hy, rfl⟩ := List.mem_map.1 hx
      rw [List.mem_filter, decide_eq_true_eq] at hy
      rw [huniq y hy.1 e he (hy.2.trans het.symm)]
    have hrun : targetTexts es o.target ≠ [] :=
      List.ne_nil_of_mem (List.mem_map_of_mem (List.mem_filter.2 ⟨he, by simpa using het⟩))
    obtain ⟨hclean, hjoin⟩ := joinsCleanly_of_forall_eq hsame
    have hot : o.text = e.text := by
      rw [htext o ho, mergeTexts_eq_joinDistinct hclean, hjoin hrun]
    rw [eq_of_target_eq het.symm hot]
    exact he
  refine (List.perm_ext_iff_of_nodup (hsorted.imp fun h hab => h.2 (congrArg target hab))
    (hd.imp fun h hab => h (congrArg target hab))).2 fun e => ⟨hmem e, fun he => ?_⟩
  obtain ⟨o, ho, hot⟩ := (htargets e.target).2 ⟨e, he, rfl⟩
  rwa [← huniq o (hmem o ho) e he hot]

end Distinct

/-! ### The edits of the groups -/

/-- Filtering a list by each index of a run of indices, and joining the pieces, gives the
elements whose index is in the run, in another order. -/
theorem List.flatMap_zipIdx_filter_perm {α β : Type} (key : α → Nat) (l : List α) :
    ∀ (ds : List β) (k : Nat), ((ds.zipIdx k).flatMap fun x => l.filter fun a => key a == x.2).Perm
      (l.filter fun a => k ≤ key a && key a < k + ds.length)
  | [], k => by
    have hnil : l.filter (fun a => k ≤ key a && key a < k + ([] : List β).length) = [] :=
      List.filter_eq_nil_iff.2 fun a _ => by simp
    rw [hnil]
    rfl
  | d :: ds, k => by
    rw [List.zipIdx_cons, List.flatMap_cons]
    refine (List.Perm.append_left _ (List.flatMap_zipIdx_filter_perm key l ds (k + 1))).trans ?_
    -- the elements of index `k`, then those of the rest of the run
    refine (List.Perm.of_eq ?_).trans
      (List.filter_append_perm (fun a => key a == k)
        (l.filter fun a => k ≤ key a && key a < k + (d :: ds).length))
    rw [List.filter_filter, List.filter_filter]
    congr 1 <;> refine List.filter_congr fun a _ => ?_ <;> rw [Bool.eq_iff_iff] <;>
      simp only [List.length_cons, Bool.and_eq_true, beq_iff_eq, decide_eq_true_eq,
        Bool.not_eq_true', beq_eq_false_iff_ne, ne_eq] <;> omega

namespace EditSession

variable (s : EditSession)

/-- A pending edit as a text edit of the unit. -/
def toEdit (p : PendingEdit) : TextEdit := ⟨s.tree.file, p.range, p.text⟩

/-- The number of edit groups the session writes: at least one. -/
def groupCount : Nat := if s.groups.isEmpty then 1 else s.groups.length

/-- The walk's edits sorted into the session's groups, one group after another: what `finish`
normalises when no raw insertion and no import is planned. -/
def groupedEdits (pending : List PendingEdit) : List TextEdit :=
  ((if s.groups.isEmpty then [""] else s.groups).zipIdx).flatMap fun x =>
    (pending.filter (·.group == x.2)).map s.toEdit

/-- With no raw insertion and no planned import, `finish` normalises the walk's edits group after
group. -/
theorem finish_map_edits (name : String) (hraw : s.rawInserts = []) (himp : s.imports.added = [])
    {pending : List PendingEdit} (hp : s.collectNode s.fuel SyntaxTree.root = .ok pending) :
    (s.finish name).map (·.edits) = (normalize (s.groupedEdits pending)).mapError .edit := by
  have himports : s.imports.edits s.tree s.separator = [] := by
    simp [ImportPlan.edits, himp]
  rw [finish, hp]
  simp only [himports, hraw, List.filter_nil, List.map_nil, List.append_nil, List.flatMap_map]
  dsimp only [bind, Except.bind]
  -- the change carries the normalised edits as they come
  split
  · rename_i err heq
    exact heq.symm
  · rename_i v heq
    exact heq.symm

/-- **The groups hold the walk's edits.** With no raw insertion and no planned import, the edits
that `finish` normalises are the edits the walk collects from the root, in another order, as long
as each of them belongs to one of the session's groups. -/
theorem finish_edits_perm (name : String) (hraw : s.rawInserts = []) (himp : s.imports.added = [])
    {pending : List PendingEdit} (hp : s.collectNode s.fuel SyntaxTree.root = .ok pending)
    (hg : ∀ p ∈ pending, p.group < s.groupCount) :
    ∃ flat, flat.Perm (pending.map s.toEdit) ∧
      (s.finish name).map (·.edits) = (normalize flat).mapError .edit := by
  refine ⟨s.groupedEdits pending, ?_, s.finish_map_edits name hraw himp hp⟩
  have hlen : (if s.groups.isEmpty then [""] else s.groups).length = s.groupCount := by
    unfold groupCount
    split <;> rfl
  unfold groupedEdits
  rw [← List.map_flatMap]
  refine List.Perm.map _ ((List.flatMap_zipIdx_filter_perm (·.group) pending _ 0).trans ?_)
  rw [List.filter_eq_self.2 fun p hp' => ?_]
  have := hg p hp'
  simp only [Nat.zero_le, decide_true, hlen, Nat.zero_add, Bool.true_and, decide_eq_true_eq]
  exact this

/-- **Finishing with edits that apply cleanly.** When the walk's edits are, in some order, edits
that fit the text, pairwise do not conflict and have different ranges, `finish` succeeds with
those edits, and the change writes all of them. -/
theorem finish_eq_ok_of_perm (name : String) (hraw : s.rawInserts = []) (himp : s.imports.added = [])
    {pending : List PendingEdit} (hp : s.collectNode s.fuel SyntaxTree.root = .ok pending)
    (hg : ∀ p ∈ pending, p.group < s.groupCount) {es : List TextEdit}
    (hperm : (pending.map s.toEdit).Perm es) (happ : Applicable s.tree.text.toList es)
    (hd : es.Pairwise fun a b => a.range ≠ b.range) (hr : ∀ e ∈ es, e.range.start ≤ e.range.stop) :
    ∃ c, s.finish name = .ok c ∧ c.edits.Perm es ∧
      c.apply s.tree.text = .ok (applyBackToFront s.tree.text es) := by
  obtain ⟨flat, hflat, hfin⟩ := finish_edits_perm s name hraw himp hp hg
  have hfe : flat.Perm es := hflat.trans hperm
  have hr' : ∀ e ∈ flat, e.range.start ≤ e.range.stop := fun e he => hr e (hfe.mem_iff.1 he)
  have hpw : flat.Pairwise fun a b => ¬ Conflict a b :=
    hfe.symm.pairwise happ.2 fun h hc => h (conflict_symm hc)
  have hdf : flat.Pairwise fun a b => a.target ≠ b.target :=
    (hfe.symm.pairwise hd fun h h' => h h'.symm).imp fun h ht => h (congrArg Prod.snd ht)
  obtain ⟨N, hN⟩ := normalize_eq_ok_of_pairwise hr' hpw
  have hNe : N.Perm es := (normalize_perm_of_distinct hr' hdf hN).trans hfe
  rw [hN] at hfin
  cases hc : s.finish name with
  | error e =>
    rw [hc] at hfin
    cases hfin
  | ok c =>
    rw [hc] at hfin
    -- the change carries the normalised edits
    have hcN : c.edits = N := by simpa [Except.map, Except.mapError] using hfin
    refine ⟨c, rfl, hcN ▸ hNe, ?_⟩
    have happly := applyEdits_eq_of_applicable s.tree.text es hr happ
    rw [UnitChange.apply, hcN, (applyEdits_perm_of_distinct hNe
      (hNe.symm.pairwise hd fun h h' => h h'.symm) (fun e he => hr e (hNe.mem_iff.1 he)) _ _).2
      happly]
    rfl

end EditSession

end QuickFix
