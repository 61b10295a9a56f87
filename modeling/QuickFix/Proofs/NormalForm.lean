import Mathlib.Data.List.Pairwise
import Mathlib.Data.List.Sort
import QuickFix.Edit.Normalize
import QuickFix.Proofs.ApplyEdits

/-!
# The normal form of a list of edits

`normalize` sorts the edits by file and range, joins the edits that **share a target** (one file
and one range) and rejects the list when two edits of one file overlap. This file proves what the
result is:

* `normalize` fails exactly when two different edits of one file conflict, and it only ever
  fails with an overlap (`normalize_eq_error_iff`);
* on success the edits are sorted by file, then start, then stop; no two share a target; within
  a file each starts at or after the one before it stops; and every target of the input is the
  target of exactly one output edit, whose text is what joining the run of its target gives
  (`normalize_eq_ok_spec`).

Joining a run keeps the first text and, for an insertion, appends each later text that differs
from the text joined so far. That is the repository's deduplication of inserts only when the
texts join **cleanly**: a text equals the join of the distinct texts before it exactly when it
repeats one of them (`mergeTexts_eq_joinDistinct`).
-/

/-- A stable sort keeps in their order the elements of a class it does not tell apart: when
the order holds between any two elements that pass `p`, sorting and then keeping those that pass
`p` keeps them as they were. -/
theorem List.filter_mergeSort_of_le {α : Type} (le : α → α → Bool)
    (htrans : ∀ a b c, le a b = true → le b c = true → le a c = true)
    (htotal : ∀ a b, (le a b || le b a) = true) (l : List α) (p : α → Bool)
    (hp : ∀ a ∈ l, ∀ b ∈ l, p a = true → p b = true → le a b = true) :
    (l.mergeSort le).filter p = l.filter p := by
  have hpw : (l.filter p).Pairwise fun a b => le a b = true := by
    refine List.Pairwise.imp_of_mem ?_ (List.pairwise_of_forall fun _ _ => True.intro)
    intro a b ha hb _
    rw [List.mem_filter] at ha hb
    exact hp a ha.1 b hb.1 ha.2 hb.2
  -- the class is a sublist of the sorted list, and as long as the class taken from it
  have hsub := (List.sublist_mergeSort htrans htotal hpw List.filter_sublist).filter p
  rw [List.filter_filter, List.filter_congr fun _ _ => Bool.and_self _] at hsub
  exact (hsub.eq_of_length ((List.mergeSort_perm l le).filter p).length_eq.symm).symm

namespace QuickFix

open Text

namespace TextEdit

/-- The file and range an edit changes. -/
def target (e : TextEdit) : FileId × Range := (e.file, e.range)

theorem target_eq_iff {a b : TextEdit} :
    a.target = b.target ↔ a.file = b.file ∧ a.range = b.range := by
  simp [target]

/-- Within one target an edit is its text. -/
theorem eq_of_target_eq {a b : TextEdit} (h : a.target = b.target) (ht : a.text = b.text) :
    a = b := by
  obtain ⟨hf, hr⟩ := target_eq_iff.1 h
  cases a
  cases b
  simp_all

/-! ### The order of edits -/

theorem fileId_eq_of_name_eq {a b : FileId} (h : a.name = b.name) : a = b := by
  cases a
  cases b
  simp_all

theorem compare_file_eq_lt {a b : FileId} : compare a b = .lt ↔ a.name < b.name :=
  compareOfLessAndEq_eq_lt

theorem compare_file_eq_eq {a b : FileId} : compare a b = .eq ↔ a = b := by
  have h : compare a b = .eq ↔ a.name = b.name :=
    compareOfLessAndEq_eq_eq String.le_refl String.not_le
  rw [h]
  exact ⟨fileId_eq_of_name_eq, fun h => h ▸ rfl⟩

theorem compare_file_eq_gt {a b : FileId} : compare a b = .gt ↔ b.name < a.name :=
  compareOfLessAndEq_eq_gt String.le_antisymm String.le_total String.not_le a.name b.name

/-- Edits are in order of file name, then of start, then of stop. -/
theorem le_iff {a b : TextEdit} :
    a.le b = true ↔ a.file.name < b.file.name ∨ (a.file = b.file ∧ a.range.le b.range = true) := by
  unfold le
  split
  · rename_i h
    have h' := compare_file_eq_lt.1 h
    simp only [true_iff]
    exact Or.inl h'
  · rename_i h
    have h' := compare_file_eq_gt.1 h
    simp only [Bool.false_eq_true, false_iff, not_or, not_and]
    exact ⟨String.lt_asymm h', fun he => absurd (he ▸ h') (String.lt_irrefl _)⟩
  · rename_i h
    have h' := compare_file_eq_eq.1 h
    simp [h']

theorem le_trans_of_le (a b c : TextEdit) (hab : a.le b = true) (hbc : b.le c = true) :
    a.le c = true := by
  rw [le_iff] at hab hbc ⊢
  rcases hab with hab | ⟨hf, hab⟩ <;> rcases hbc with hbc | ⟨hf', hbc⟩
  · exact Or.inl (String.lt_trans hab hbc)
  · exact Or.inl (hf' ▸ hab)
  · exact Or.inl (hf ▸ hbc)
  · exact Or.inr ⟨hf.trans hf', rangeLe_trans a b c hab hbc⟩

theorem le_or_le (a b : TextEdit) : (a.le b || b.le a) = true := by
  rw [Bool.or_eq_true, le_iff, le_iff]
  by_cases hab : a.file.name < b.file.name
  · exact Or.inl (Or.inl hab)
  by_cases hba : b.file.name < a.file.name
  · exact Or.inr (Or.inl hba)
  -- neither name comes first, so the files are the same
  have hf : a.file = b.file := fileId_eq_of_name_eq
    (String.le_antisymm (String.not_lt.1 hba) (String.not_lt.1 hab))
  rcases Bool.or_eq_true _ _ ▸ rangeLe_total a b with h | h
  · exact Or.inl (Or.inr ⟨hf, h⟩)
  · exact Or.inr (Or.inr ⟨hf.symm, h⟩)

/-- Edits with one target come in either order. -/
theorem le_of_target_eq {a b : TextEdit} (h : a.target = b.target) : a.le b = true := by
  obtain ⟨hf, hr⟩ := target_eq_iff.1 h
  rw [le_iff, hr]
  refine Or.inr ⟨hf, ?_⟩
  simp [Range.le]

/-- The order looks at targets only. -/
theorem le_congr {a a' b b' : TextEdit} (ha : a.target = a'.target) (hb : b.target = b'.target) :
    a.le b = a'.le b' := by
  obtain ⟨haf, har⟩ := target_eq_iff.1 ha
  obtain ⟨hbf, hbr⟩ := target_eq_iff.1 hb
  simp only [le, haf, har, hbf, hbr]

/-- An edit between two edits of one file is in that file. -/
theorem file_eq_of_le_of_le {a b c : TextEdit} (hab : a.le b = true) (hbc : b.le c = true)
    (hac : a.file = c.file) : b.file = a.file := by
  rw [le_iff] at hab hbc
  rcases hab with hab | ⟨hf, -⟩
  · rcases hbc with hbc | ⟨hf', -⟩
    · exact absurd (String.lt_trans hab (hac ▸ hbc)) (String.lt_irrefl _)
    · exact absurd (hac ▸ hf' ▸ hab) (String.lt_irrefl _)
  · exact hf.symm

/-- An edit between two edits of one target has that target. -/
theorem target_eq_of_le_of_le {a b c : TextEdit} (hab : a.le b = true) (hbc : b.le c = true)
    (hac : a.target = c.target) : b.target = a.target := by
  obtain ⟨hacf, hacr⟩ := target_eq_iff.1 hac
  have hbf := file_eq_of_le_of_le hab hbc hacf
  rw [le_iff] at hab hbc
  rcases hab with hab | ⟨-, hab⟩
  · exact absurd (hbf ▸ hab) (String.lt_irrefl _)
  rcases hbc with hbc | ⟨-, hbc⟩
  · exact absurd (hacf ▸ hbf ▸ hbc) (String.lt_irrefl _)
  rw [hacr] at hab
  simp only [Range.le, Bool.or_eq_true, Bool.and_eq_true, decide_eq_true_eq, beq_iff_eq] at hab hbc
  refine target_eq_iff.2 ⟨hbf, ?_⟩
  have hs : b.range.start = c.range.start := by omega
  have ht : b.range.stop = c.range.stop := by omega
  rw [hacr]
  cases hb : b.range
  cases hc : c.range
  simp_all

/-! ### Sorting -/

theorem perm_sort (edits : List TextEdit) : (sort edits).Perm edits :=
  List.mergeSort_perm edits le

theorem pairwise_sort (edits : List TextEdit) : (sort edits).Pairwise fun a b => a.le b = true :=
  List.pairwise_mergeSort le_trans_of_le le_or_le edits

/-- Sorting is stable: the edits of one target keep their order. -/
theorem filter_sort_target (edits : List TextEdit) (k : FileId × Range) :
    (sort edits).filter (fun e => e.target = k) = edits.filter (fun e => e.target = k) :=
  List.filter_mergeSort_of_le le le_trans_of_le le_or_le edits _ fun a ha b hb hak hbk => by
    simp only [decide_eq_true_eq] at hak hbk
    exact le_of_target_eq (hak.trans hbk.symm)

end TextEdit

/-! ### Joining the runs of one target -/

namespace TextEdit

/-- Joining a later edit of the same target into the joined one: a repeat of the joined text is
dropped, an insertion appends the new text, and a second text for a non-empty range is an
overlap. -/
def joinInto (last e : TextEdit) : Except EditError TextEdit :=
  if last.text = e.text then .ok last
  else if last.range.isEmpty then .ok { last with text := last.text ++ e.text }
  else .error (.overlapping e.file last.range e.range)

/-- One step of joining a run: a text is appended unless it repeats the text joined so far. -/
def appendNew (acc x : String) : String := if acc = x then acc else acc ++ x

/-- The texts of a run joined as the merge joins them. -/
def mergeTexts (ts : List String) : String := ts.foldl appendNew ""

/-- The texts of the edits of one target, in list order. -/
def targetTexts (es : List TextEdit) (k : FileId × Range) : List String :=
  (es.filter fun e => e.target = k).map (·.text)

theorem targetTexts_sort (edits : List TextEdit) (k : FileId × Range) :
    targetTexts (sort edits) k = targetTexts edits k := by
  rw [targetTexts, targetTexts, filter_sort_target]

@[simp] theorem appendNew_empty (x : String) : appendNew "" x = x := by
  by_cases h : "" = x <;> simp [appendNew, h]

theorem join_of_target_eq {done : List TextEdit} {last e : TextEdit} (h : last.target = e.target) :
    join done last e = (joinInto last e).map (done, ·) := by
  obtain ⟨hf, hr⟩ := target_eq_iff.1 h
  unfold join joinInto
  simp only [hf, hr, beq_self_eq_true, Bool.and_self, ↓reduceIte, beq_iff_eq]
  split_ifs <;> rfl

theorem join_of_target_ne {done : List TextEdit} {last e : TextEdit} (h : last.target ≠ e.target) :
    join done last e = .ok (last :: done, e) := by
  have h' : ¬ (last.file = e.file ∧ last.range = e.range) := fun h'' => h (target_eq_iff.2 h'')
  unfold join
  simp only [Bool.and_eq_true, beq_iff_eq, h', ↓reduceIte]

/-- The joined edits do not depend on the ones already put aside, which come first. -/
theorem joinAll_go_eq_map (done : List TextEdit) (last : TextEdit) (rest : List TextEdit) :
    joinAll.go done last rest = (joinAll.go [] last rest).map (done.reverse ++ ·) := by
  induction rest generalizing done last with
  | nil => simp [joinAll.go, Except.map]
  | cons e es ih =>
    by_cases h : last.target = e.target
    · simp only [joinAll.go, join_of_target_eq h]
      cases joinInto last e with
      | error err => rfl
      | ok l => exact ih done l
    · simp only [joinAll.go, join_of_target_ne h]
      show joinAll.go (last :: done) e es = (joinAll.go [last] e es).map (done.reverse ++ ·)
      rw [ih (last :: done) e, ih [last] e]
      cases joinAll.go [] e es <;> simp [Except.map]

theorem joinAll_go_cons_of_target_ne {last e : TextEdit} {es : List TextEdit}
    (h : last.target ≠ e.target) :
    joinAll.go [] last (e :: es) = (joinAll.go [] e es).map (last :: ·) := by
  simp only [joinAll.go, join_of_target_ne h]
  show joinAll.go [last] e es = _
  rw [joinAll_go_eq_map]
  cases joinAll.go [] e es <;> rfl

theorem joinAll_go_cons_of_target_eq {last e : TextEdit} {es : List TextEdit}
    (h : last.target = e.target) :
    joinAll.go [] last (e :: es) = joinInto last e >>= fun l => joinAll.go [] l es := by
  simp only [joinAll.go, join_of_target_eq h]
  cases joinInto last e <;> rfl

theorem target_joinInto {last e l : TextEdit} (h : joinInto last e = .ok l) :
    l.target = last.target := by
  unfold joinInto at h
  split_ifs at h <;> cases h <;> rfl

/-- In a sorted list, an edit whose target differs from the next one's is alone with its target
among the edits after it. -/
theorem target_ne_of_sorted {last e : TextEdit} {es : List TextEdit}
    (hs : (last :: e :: es).Pairwise fun a b => a.le b = true) (h : last.target ≠ e.target) :
    ∀ y ∈ e :: es, y.target ≠ last.target := by
  intro y hy hyl
  rcases List.mem_cons.1 hy with rfl | hy
  · exact h hyl.symm
  · have hle := List.rel_of_pairwise_cons hs (List.mem_cons_self)
    have hle' := List.rel_of_pairwise_cons (List.pairwise_cons.1 hs).2 hy
    exact h (target_eq_of_le_of_le hle hle' hyl.symm).symm

theorem sorted_of_target_eq {last l : TextEdit} {es : List TextEdit} (h : l.target = last.target)
    (hs : (last :: es).Pairwise fun a b => a.le b = true) :
    (l :: es).Pairwise fun a b => a.le b = true := by
  refine List.pairwise_cons.2 ⟨fun y hy => ?_, (List.pairwise_cons.1 hs).2⟩
  rw [le_congr h rfl]
  exact List.rel_of_pairwise_cons hs hy

/-- What joining into the joined edit can do. -/
theorem joinInto_eq_ok {last e l : TextEdit} (h : joinInto last e = .ok l) :
    (last.text = e.text ∧ l = last) ∨
      (last.text ≠ e.text ∧ last.range.isEmpty = true ∧
        l = { last with text := last.text ++ e.text }) := by
  unfold joinInto at h
  split_ifs at h with h₁ h₂
  · exact Or.inl ⟨h₁, (Except.ok.inj h).symm⟩
  · exact Or.inr ⟨h₁, h₂, (Except.ok.inj h).symm⟩

theorem joinInto_eq_error {last e : TextEdit} {err : EditError} (h : joinInto last e = .error err) :
    last.text ≠ e.text ∧ last.range.isEmpty = false ∧
      err = .overlapping e.file last.range e.range := by
  unfold joinInto at h
  split_ifs at h with h₁ h₂
  exact ⟨h₁, by simpa using h₂, (Except.error.inj h).symm⟩

theorem joinAll_go_nil_eq_ok {last : TextEdit} {out : List TextEdit}
    (h : joinAll.go [] last [] = .ok out) : out = [last] := by
  simp only [joinAll.go, List.reverse_cons, List.reverse_nil, List.nil_append] at h
  exact (Except.ok.inj h).symm

/-- One step of the join, read backwards: the next edit is joined into the last one, or starts a
new target after it. -/
theorem joinAll_go_cons_eq_ok {last e : TextEdit} {es out : List TextEdit}
    (h : joinAll.go [] last (e :: es) = .ok out) :
    (last.target = e.target ∧ ∃ l, joinInto last e = .ok l ∧ joinAll.go [] l es = .ok out) ∨
      (last.target ≠ e.target ∧ ∃ out', joinAll.go [] e es = .ok out' ∧ out = last :: out') := by
  by_cases ht : last.target = e.target
  · rw [joinAll_go_cons_of_target_eq ht] at h
    cases hj : joinInto last e with
    | error err => rw [hj] at h; cases h
    | ok l => rw [hj] at h; exact Or.inl ⟨ht, l, rfl, h⟩
  · rw [joinAll_go_cons_of_target_ne ht] at h
    cases hg : joinAll.go [] e es with
    | error err => rw [hg] at h; cases h
    | ok out' =>
      rw [hg] at h
      exact Or.inr ⟨ht, out', rfl, (Except.ok.inj h).symm⟩

/-- Every joined edit has the target of an input edit. -/
theorem exists_target_of_joinAll_go {last : TextEdit} {rest out : List TextEdit}
    (h : joinAll.go [] last rest = .ok out) :
    ∀ o ∈ out, ∃ x ∈ last :: rest, o.target = x.target := by
  induction rest generalizing last out with
  | nil =>
    rw [joinAll_go_nil_eq_ok h]
    intro o ho
    exact ⟨o, by simpa using ho, rfl⟩
  | cons e es ih =>
    rcases joinAll_go_cons_eq_ok h with ⟨-, l, hj, hg⟩ | ⟨-, out', hg, rfl⟩
    · intro o ho
      obtain ⟨x, hx, hox⟩ := ih hg o ho
      rcases List.mem_cons.1 hx with rfl | hx
      · exact ⟨last, List.mem_cons_self, hox.trans (target_joinInto hj)⟩
      · exact ⟨x, List.mem_cons_of_mem _ (List.mem_cons_of_mem _ hx), hox⟩
    · intro o ho
      rcases List.mem_cons.1 ho with rfl | ho
      · exact ⟨o, List.mem_cons_self, rfl⟩
      · obtain ⟨x, hx, hox⟩ := ih hg o ho
        exact ⟨x, List.mem_cons_of_mem _ hx, hox⟩

/-- Every input target is the target of a joined edit. -/
theorem exists_joined_of_joinAll_go {last : TextEdit} {rest out : List TextEdit}
    (h : joinAll.go [] last rest = .ok out) :
    ∀ x ∈ last :: rest, ∃ o ∈ out, o.target = x.target := by
  induction rest generalizing last out with
  | nil =>
    rw [joinAll_go_nil_eq_ok h]
    intro x hx
    exact ⟨x, hx, rfl⟩
  | cons e es ih =>
    rcases joinAll_go_cons_eq_ok h with ⟨ht, l, hj, hg⟩ | ⟨-, out', hg, rfl⟩
    · intro x hx
      rcases List.mem_cons.1 hx with rfl | hx
      · obtain ⟨o, ho, hol⟩ := ih hg l List.mem_cons_self
        exact ⟨o, ho, hol.trans (target_joinInto hj)⟩
      rcases List.mem_cons.1 hx with rfl | hx
      · obtain ⟨o, ho, hol⟩ := ih hg l List.mem_cons_self
        exact ⟨o, ho, (hol.trans (target_joinInto hj)).trans ht⟩
      · exact ih hg x (List.mem_cons_of_mem _ hx)
    · intro x hx
      rcases List.mem_cons.1 hx with rfl | hx
      · exact ⟨x, List.mem_cons_self, rfl⟩
      · obtain ⟨o, ho, hox⟩ := ih hg x hx
        exact ⟨o, List.mem_cons_of_mem _ ho, hox⟩

/-- The joined edits of a sorted list are sorted and have distinct targets. -/
theorem pairwise_joinAll_go {last : TextEdit} {rest out : List TextEdit}
    (hs : (last :: rest).Pairwise fun a b => a.le b = true)
    (h : joinAll.go [] last rest = .ok out) :
    out.Pairwise fun a b => a.le b = true ∧ a.target ≠ b.target := by
  induction rest generalizing last out with
  | nil => simp [joinAll_go_nil_eq_ok h]
  | cons e es ih =>
    rcases joinAll_go_cons_eq_ok h with ⟨-, l, hj, hg⟩ | ⟨ht, out', hg, rfl⟩
    · have hs' : (last :: es).Pairwise fun a b => a.le b = true :=
        hs.sublist (List.Sublist.cons_cons _ (List.sublist_cons_self _ _))
      exact ih (sorted_of_target_eq (target_joinInto hj) hs') hg
    · refine List.pairwise_cons.2 ⟨fun o ho => ?_, ih (List.pairwise_cons.1 hs).2 hg⟩
      obtain ⟨x, hx, hox⟩ := exists_target_of_joinAll_go hg o ho
      refine ⟨?_, fun h' => target_ne_of_sorted hs ht x hx (hox ▸ h'.symm)⟩
      rw [le_congr rfl hox]
      exact List.rel_of_pairwise_cons hs hx

/-- Each joined edit carries the text the merge gives its target. -/
theorem text_of_joinAll_go {last : TextEdit} {rest out : List TextEdit}
    (hs : (last :: rest).Pairwise fun a b => a.le b = true)
    (h : joinAll.go [] last rest = .ok out) :
    ∀ o ∈ out, o.text = mergeTexts (targetTexts (last :: rest) o.target) := by
  induction rest generalizing last out with
  | nil =>
    rw [joinAll_go_nil_eq_ok h]
    intro o ho
    rw [List.mem_singleton.1 ho]
    simp [mergeTexts, targetTexts]
  | cons e es ih =>
    rcases joinAll_go_cons_eq_ok h with ⟨ht, l, hj, hg⟩ | ⟨ht, out', hg, rfl⟩
    · have hs' : (last :: es).Pairwise fun a b => a.le b = true :=
        hs.sublist (List.Sublist.cons_cons _ (List.sublist_cons_self _ _))
      have hl := target_joinInto hj
      intro o ho
      rw [ih (sorted_of_target_eq hl hs') hg o ho]
      -- joining `e` into `last` is the first step of the merge of their target
      by_cases hk : last.target = o.target
      · have hstep : l.text = appendNew last.text e.text := by
          rcases joinInto_eq_ok hj with ⟨h₁, rfl⟩ | ⟨h₁, -, rfl⟩ <;> simp [appendNew, h₁]
        simp [targetTexts, mergeTexts, hl, hk, ← ht, hstep]
      · simp [targetTexts, hl, hk, ← ht]
    · have hne := target_ne_of_sorted hs ht
      intro o ho
      rcases List.mem_cons.1 ho with rfl | ho
      · have hnone : ((e :: es).filter fun y => y.target = o.target) = [] :=
          List.filter_eq_nil_iff.2 fun y hy => by simpa using hne y hy
        simp [targetTexts, mergeTexts, hnone]
      · obtain ⟨x, hx, hox⟩ := exists_target_of_joinAll_go hg o ho
        have hk : last.target ≠ o.target := fun h' => hne x hx (hox ▸ h'.symm)
        rw [ih (List.pairwise_cons.1 hs).2 hg o ho]
        simp [targetTexts, hk]

/-- An input edit of a non-empty range that is joined into `l` is still there, with its text,
among `l` and the edits after it. -/
theorem exists_joined_of_joinInto {last e l : TextEdit} {es : List TextEdit}
    (ht : last.target = e.target) (hj : joinInto last e = .ok l) :
    ∀ z ∈ last :: e :: es, z.range.isEmpty = false →
      ∃ z' ∈ l :: es, z'.target = z.target ∧ z'.text = z.text := by
  rcases joinInto_eq_ok hj with ⟨htext, rfl⟩ | ⟨-, hempty, rfl⟩
  · -- `e` repeats `last`, which stands in for it
    intro z hz _
    rcases List.mem_cons.1 hz with rfl | hz
    · exact ⟨z, List.mem_cons_self, rfl, rfl⟩
    rcases List.mem_cons.1 hz with rfl | hz
    · exact ⟨_, List.mem_cons_self, ht, htext⟩
    · exact ⟨z, List.mem_cons_of_mem _ hz, rfl, rfl⟩
  · -- `last` and `e` are insertions, so `z` is one of the later edits
    intro z hz hz'
    rcases List.mem_cons.1 hz with rfl | hz
    · simp [hempty] at hz'
    rcases List.mem_cons.1 hz with rfl | hz
    · simp [← (target_eq_iff.1 ht).2, hempty] at hz'
    · exact ⟨z, List.mem_cons_of_mem _ hz, rfl, rfl⟩

/-- A joined edit of a non-empty range is an input edit: only insertions get new texts. -/
theorem mem_of_joinInto {last e l : TextEdit} {es : List TextEdit}
    (hj : joinInto last e = .ok l) :
    ∀ z ∈ l :: es, z.range.isEmpty = false → z ∈ last :: e :: es := by
  intro z hz hz'
  rcases List.mem_cons.1 hz with rfl | hz
  · rcases joinInto_eq_ok hj with ⟨-, rfl⟩ | ⟨-, hempty, rfl⟩
    · exact List.mem_cons_self
    · simp [hempty] at hz'
  · exact List.mem_cons_of_mem _ (List.mem_cons_of_mem _ hz)

/-- When the join succeeds, the edits of one non-empty range carry one text. -/
theorem text_eq_of_joinAll_go {last : TextEdit} {rest out : List TextEdit}
    (hs : (last :: rest).Pairwise fun a b => a.le b = true)
    (h : joinAll.go [] last rest = .ok out) :
    ∀ x ∈ last :: rest, ∀ y ∈ last :: rest, x.target = y.target → x.range.isEmpty = false →
      x.text = y.text := by
  induction rest generalizing last out with
  | nil =>
    intro x hx y hy _ _
    rw [List.mem_singleton.1 hx, List.mem_singleton.1 hy]
  | cons e es ih =>
    rcases joinAll_go_cons_eq_ok h with ⟨ht, l, hj, hg⟩ | ⟨ht, out', hg, rfl⟩
    · -- `e` was joined into `last`: a non-empty range keeps one text through the join, so
      -- both edits stand for the joined one in the rest of the run
      have hs' : (last :: es).Pairwise fun a b => a.le b = true :=
        hs.sublist (List.Sublist.cons_cons _ (List.sublist_cons_self _ _))
      have ih' := ih (sorted_of_target_eq (target_joinInto hj) hs') hg
      intro x hx y hy hxy hne
      have hne_y : y.range.isEmpty = false := by rwa [← (target_eq_iff.1 hxy).2]
      obtain ⟨x', hx', hxt, hxs⟩ := exists_joined_of_joinInto ht hj x hx hne
      obtain ⟨y', hy', hyt, hys⟩ := exists_joined_of_joinInto ht hj y hy hne_y
      have hne' : x'.range.isEmpty = false := by rwa [(target_eq_iff.1 hxt).2]
      rw [← hxs, ← hys]
      exact ih' x' hx' y' hy' (hxt.trans (hxy.trans hyt.symm)) hne'
    · -- `last` is finished: no later edit has its target
      have hne := target_ne_of_sorted hs ht
      have ih' := ih (List.pairwise_cons.1 hs).2 hg
      intro x hx y hy hxy hxe
      rcases List.mem_cons.1 hx with hxl | hxs <;> rcases List.mem_cons.1 hy with hyl | hys
      · rw [hxl, hyl]
      · exact (hne y hys (by rw [← hxl]; exact hxy.symm)).elim
      · exact (hne x hxs (by rw [← hyl]; exact hxy)).elim
      · exact ih' x hxs y hys hxy hxe

/-- One step of the join, read backwards from an error. -/
theorem joinAll_go_cons_eq_error {last e : TextEdit} {es : List TextEdit} {err : EditError}
    (h : joinAll.go [] last (e :: es) = .error err) :
    (last.target = e.target ∧ (joinInto last e = .error err ∨
        ∃ l, joinInto last e = .ok l ∧ joinAll.go [] l es = .error err)) ∨
      (last.target ≠ e.target ∧ joinAll.go [] e es = .error err) := by
  by_cases ht : last.target = e.target
  · rw [joinAll_go_cons_of_target_eq ht] at h
    cases hj : joinInto last e with
    | error err' =>
      rw [hj] at h
      cases (Except.error.inj h : err' = err)
      exact Or.inl ⟨ht, Or.inl rfl⟩
    | ok l => rw [hj] at h; exact Or.inl ⟨ht, Or.inr ⟨l, rfl, h⟩⟩
  · rw [joinAll_go_cons_of_target_ne ht] at h
    cases hg : joinAll.go [] e es with
    | error err' => rw [hg] at h; exact Or.inr ⟨ht, by rw [← h]; rfl⟩
    | ok out' => rw [hg] at h; cases h

/-- A failed join has met a second text for a non-empty range, and reports it as an overlap of
that range with itself. -/
theorem exists_clash_of_joinAll_go {last : TextEdit} {rest : List TextEdit} {err : EditError}
    (h : joinAll.go [] last rest = .error err) :
    ∃ x ∈ last :: rest, ∃ y ∈ last :: rest, x.target = y.target ∧ x.range.isEmpty = false ∧
      x.text ≠ y.text ∧ err = .overlapping x.file x.range x.range := by
  induction rest generalizing last with
  | nil => simp [joinAll.go] at h
  | cons e es ih =>
    rcases joinAll_go_cons_eq_error h with ⟨ht, hj | ⟨l, hj, hg⟩⟩ | ⟨-, hg⟩
    · -- the clash is between `last` and `e`
      obtain ⟨htext, hne, rfl⟩ := joinInto_eq_error hj
      obtain ⟨hf, hr⟩ := target_eq_iff.1 ht
      exact ⟨last, List.mem_cons_self, e, by simp, ht, hne, htext, by rw [hf, hr]⟩
    · obtain ⟨x, hx, y, hy, hxy, hne, htext, rfl⟩ := ih hg
      have hne_y : y.range.isEmpty = false := by rwa [← (target_eq_iff.1 hxy).2]
      exact ⟨x, mem_of_joinInto hj x hx hne, y, mem_of_joinInto hj y hy hne_y, hxy, hne, htext,
        rfl⟩
    · obtain ⟨x, hx, y, hy, hxy, hne, htext, rfl⟩ := ih hg
      exact ⟨x, List.mem_cons_of_mem _ hx, y, List.mem_cons_of_mem _ hy, hxy, hne, htext, rfl⟩

/-- The join of a sorted list, read as one statement: the joined edits are sorted with distinct
targets, they have exactly the targets of the input, each carries the merged texts of its target,
and the edits of one non-empty range agree on their text. -/
theorem joinAll_spec {l out : List TextEdit} (hs : l.Pairwise fun a b => a.le b = true)
    (h : joinAll l = .ok out) :
    (out.Pairwise fun a b => a.le b = true ∧ a.target ≠ b.target) ∧
    (∀ o ∈ out, ∃ x ∈ l, o.target = x.target) ∧ (∀ x ∈ l, ∃ o ∈ out, o.target = x.target) ∧
    (∀ o ∈ out, o.text = mergeTexts (targetTexts l o.target)) ∧
    (∀ x ∈ l, ∀ y ∈ l, x.target = y.target → x.range.isEmpty = false → x.text = y.text) := by
  cases l with
  | nil =>
    cases (Except.ok.inj h : [] = out)
    simp
  | cons last rest =>
    exact ⟨pairwise_joinAll_go hs h, exists_target_of_joinAll_go h, exists_joined_of_joinAll_go h,
      text_of_joinAll_go hs h, text_eq_of_joinAll_go hs h⟩

theorem exists_clash_of_joinAll {l : List TextEdit} {err : EditError} (h : joinAll l = .error err) :
    ∃ x ∈ l, ∃ y ∈ l, x.target = y.target ∧ x.range.isEmpty = false ∧ x.text ≠ y.text ∧
      err = .overlapping x.file x.range x.range := by
  cases l with
  | nil => cases h
  | cons last rest => exact exists_clash_of_joinAll_go h

/-! ### The overlap check -/

/-- A reported overlap is between two edits of one file, one right after the other, where the
second starts before the first stops. -/
theorem firstOverlap_eq_some {l : List TextEdit} {err : EditError}
    (h : firstOverlap l = some err) :
    ∃ a b, List.Sublist [a, b] l ∧ a.file = b.file ∧ b.range.start < a.range.stop ∧
      err = .overlapping b.file a.range b.range := by
  fun_induction firstOverlap l with
  | case1 a b rest hab =>
    simp only [Bool.and_eq_true, beq_iff_eq, decide_eq_true_eq] at hab
    exact ⟨a, b, by simp, hab.1, hab.2, (Option.some.inj h).symm⟩
  | case2 a b rest _ ih =>
    obtain ⟨x, y, hsub, hxy⟩ := ih h
    exact ⟨x, y, hsub.trans (List.sublist_cons_self _ _), hxy⟩
  | case3 => cases h

/-- Without a reported overlap, each edit of a sorted list starts at or after every earlier edit
of its file stops. -/
theorem chained_of_firstOverlap_eq_none {l : List TextEdit}
    (hs : l.Pairwise fun a b => a.le b = true) (hr : ∀ e ∈ l, e.range.start ≤ e.range.stop)
    (h : firstOverlap l = none) :
    l.Pairwise fun a b => a.file = b.file → a.range.stop ≤ b.range.start := by
  fun_induction firstOverlap l with
  | case1 => cases h
  | case2 a b rest hab ih =>
    have hab' : a.file = b.file → a.range.stop ≤ b.range.start := by
      intro hf
      simp only [hf, beq_self_eq_true, Bool.true_and, decide_eq_true_eq] at hab
      omega
    have htail := ih (List.pairwise_cons.1 hs).2 (fun e he => hr e (List.mem_cons_of_mem _ he)) h
    refine List.pairwise_cons.2 ⟨fun c hc hac => ?_, htail⟩
    rcases List.mem_cons.1 hc with rfl | hc
    · exact hab' hac
    -- `b` lies between `a` and `c` in the order, so it is in their file
    have hfb := file_eq_of_le_of_le (List.rel_of_pairwise_cons hs List.mem_cons_self)
      (List.rel_of_pairwise_cons (List.pairwise_cons.1 hs).2 hc) hac
    have h₁ := hab' hfb.symm
    have h₂ := hr b (List.mem_cons_of_mem _ List.mem_cons_self)
    have h₃ := List.rel_of_pairwise_cons htail hc (hfb ▸ hac)
    omega
  | case3 l hl =>
    match l, hl with
    | [], _ => exact List.Pairwise.nil
    | [_], _ => exact List.pairwise_singleton _ _
    | a :: b :: rest, hl => exact absurd rfl (hl a b rest)

end TextEdit

/-! ### Normalising -/

open TextEdit

/-- Conflicting is a property of the two ranges. -/
theorem conflict_congr {a a' b b' : TextEdit} (ha : a.range = a'.range) (hb : b.range = b'.range) :
    Conflict a b ↔ Conflict a' b' := by
  simp only [Conflict, ha, hb]

/-- Two edits of one range conflict exactly when the range is not empty. -/
theorem conflict_of_range_eq_iff {a b : TextEdit} (h : a.range = b.range)
    (hr : a.range.start ≤ a.range.stop) : Conflict a b ↔ a.range.isEmpty = false := by
  simp only [Conflict, ← h, Range.isEmpty, beq_eq_false_iff_ne, ne_eq]
  omega

theorem TextEdit.rangeLe_of_le {a b : TextEdit} (h : a.le b = true) (hf : a.file = b.file) :
    a.range.le b.range = true := by
  rcases le_iff.1 h with h | ⟨-, h⟩
  · exact absurd (hf ▸ h) (String.lt_irrefl _)
  · exact h

theorem normalize_eq_ok_iff {edits N : List TextEdit} :
    normalize edits = .ok N ↔ joinAll (sort edits) = .ok N ∧ firstOverlap N = none := by
  unfold normalize
  cases joinAll (sort edits) with
  | error err => simp [bind, Except.bind]
  | ok J => cases h : firstOverlap J <;> simp [bind, Except.bind, h] <;> rintro rfl <;> simp [h]

theorem normalize_eq_error_iff {edits : List TextEdit} {err : EditError} :
    normalize edits = .error err ↔ joinAll (sort edits) = .error err ∨
      ∃ J, joinAll (sort edits) = .ok J ∧ firstOverlap J = some err := by
  unfold normalize
  cases joinAll (sort edits) with
  | error err' => simp [bind, Except.bind]
  | ok J => cases h : firstOverlap J <;> simp [bind, Except.bind, h]

section

variable {edits N : List TextEdit}

/-- A failed normalisation is an overlap between two different edits of one file that
conflict. -/
theorem exists_conflict_of_normalize_eq_error (hr : ∀ e ∈ edits, e.range.start ≤ e.range.stop)
    {err : EditError} (h : normalize edits = .error err) :
    (∃ a ∈ edits, ∃ b ∈ edits, a.file = b.file ∧ a ≠ b ∧ Conflict a b) ∧
      ∃ f r r', err = .overlapping f r r' := by
  have hperm := perm_sort edits
  rcases normalize_eq_error_iff.1 h with hj | ⟨J, hj, ho⟩
  · -- two texts for one non-empty range
    obtain ⟨x, hx, y, hy, hxy, hne, htext, rfl⟩ := exists_clash_of_joinAll hj
    obtain ⟨hf, hrange⟩ := target_eq_iff.1 hxy
    have hxe := hperm.mem_iff.1 hx
    refine ⟨⟨x, hxe, y, hperm.mem_iff.1 hy, hf, fun h' => htext (h' ▸ rfl), ?_⟩, _, _, _, rfl⟩
    exact (conflict_of_range_eq_iff hrange (hr x hxe)).2 hne
  · -- two joined edits of one file, one right after the other, that overlap
    obtain ⟨a, b, hsub, hf, hlt, rfl⟩ := firstOverlap_eq_some ho
    obtain ⟨hsorted, hsrc, -, -, -⟩ := joinAll_spec (pairwise_sort edits) hj
    have hab := List.pairwise_pair.1 (hsorted.sublist hsub)
    obtain ⟨a', ha', haa⟩ := hsrc a (hsub.subset (by simp))
    obtain ⟨b', hb', hbb⟩ := hsrc b (hsub.subset (by simp))
    obtain ⟨haf, har⟩ := target_eq_iff.1 haa
    obtain ⟨hbf, hbr⟩ := target_eq_iff.1 hbb
    have hb'e := hperm.mem_iff.1 hb'
    have hconf : Conflict a b := by
      -- sorted and apart, `b` would start at or after `a` stops
      by_contra hc
      have hbv : b.range.start ≤ b.range.stop := by rw [hbr]; exact hr b' hb'e
      have := stop_le_start_of_rangeLe hbv (rangeLe_of_le hab.1 hf) hc
      omega
    refine ⟨⟨a', hperm.mem_iff.1 ha', b', hb'e, by rw [← haf, ← hbf]; exact hf,
      fun h' => hab.2 (by rw [haa, hbb, h']), (conflict_congr har hbr).1 hconf⟩, _, _, _, rfl⟩

/-- The normalised edits have the ranges of input edits, so they start no later than they
stop. -/
theorem range_valid_of_normalize_eq_ok (hr : ∀ e ∈ edits, e.range.start ≤ e.range.stop)
    (h : normalize edits = .ok N) : ∀ o ∈ N, o.range.start ≤ o.range.stop := by
  obtain ⟨hj, -⟩ := normalize_eq_ok_iff.1 h
  obtain ⟨-, hsrc, -⟩ := joinAll_spec (pairwise_sort edits) hj
  intro o ho
  obtain ⟨x, hx, hox⟩ := hsrc o ho
  rw [(target_eq_iff.1 hox).2]
  exact hr x ((perm_sort edits).mem_iff.1 hx)

/-- What a successful normalisation gives: the edits are sorted with distinct targets, each
starts at or after the earlier edits of its file stop, they have exactly the targets of the
input, each carries the merged texts of its target, and the input edits of one non-empty range
agree on their text. -/
theorem normalize_eq_ok_spec (hr : ∀ e ∈ edits, e.range.start ≤ e.range.stop)
    (h : normalize edits = .ok N) :
    (N.Pairwise fun a b => a.le b = true ∧ a.target ≠ b.target) ∧
    (N.Pairwise fun a b => a.file = b.file → a.range.stop ≤ b.range.start) ∧
    (∀ k, (∃ o ∈ N, o.target = k) ↔ ∃ e ∈ edits, e.target = k) ∧
    (∀ o ∈ N, o.text = mergeTexts (targetTexts edits o.target)) ∧
    (∀ x ∈ edits, ∀ y ∈ edits, x.target = y.target → x.range.isEmpty = false →
      x.text = y.text) := by
  obtain ⟨hj, ho⟩ := normalize_eq_ok_iff.1 h
  have hperm := perm_sort edits
  obtain ⟨hsorted, hsrc, hdst, htext, hagree⟩ := joinAll_spec (pairwise_sort edits) hj
  refine ⟨hsorted, chained_of_firstOverlap_eq_none (hsorted.imp And.left)
    (range_valid_of_normalize_eq_ok hr h) ho,
    fun k => ⟨?_, ?_⟩, fun o ho' => by rw [htext o ho', targetTexts_sort], fun x hx y hy =>
      hagree x (hperm.mem_iff.2 hx) y (hperm.mem_iff.2 hy)⟩
  · rintro ⟨o, ho', rfl⟩
    obtain ⟨x, hx, hox⟩ := hsrc o ho'
    exact ⟨x, hperm.mem_iff.1 hx, hox.symm⟩
  · rintro ⟨e, he, rfl⟩
    exact hdst e (hperm.mem_iff.2 he)

/-- After a successful normalisation no two different edits of one file conflict. -/
theorem not_conflict_of_normalize_eq_ok (hr : ∀ e ∈ edits, e.range.start ≤ e.range.stop)
    (h : normalize edits = .ok N) :
    ∀ a ∈ edits, ∀ b ∈ edits, a.file = b.file → a ≠ b → ¬ Conflict a b := by
  obtain ⟨-, hchain, htargets, -, hagree⟩ := normalize_eq_ok_spec hr h
  intro a ha b hb hf hne hc
  by_cases hab : a.target = b.target
  · -- one range: it is not empty, so the two edits carry one text and are the same edit
    have hne' := (conflict_of_range_eq_iff (target_eq_iff.1 hab).2 (hr a ha)).1 hc
    exact hne (eq_of_target_eq hab (hagree a ha b hb hab hne'))
  · -- two targets: their joined edits follow one another in the file
    obtain ⟨oa, hoa, hoat⟩ := (htargets a.target).2 ⟨a, ha, rfl⟩
    obtain ⟨ob, hob, hobt⟩ := (htargets b.target).2 ⟨b, hb, rfl⟩
    obtain ⟨haf, har⟩ := target_eq_iff.1 hoat
    obtain ⟨hbf, hbr⟩ := target_eq_iff.1 hobt
    have : Std.Symm fun x y : TextEdit => x.file = y.file → ¬ Conflict x y :=
      ⟨fun x y hxy hf' hc' => hxy hf'.symm (conflict_symm hc')⟩
    have hpw := hchain.imp fun hxy hf' => not_conflict_of_stop_le_start (hxy hf')
    exact hpw.forall hoa hob (fun h' => hab (by rw [← hoat, ← hobt, h'])) (by rw [haf, hbf, hf])
      ((conflict_congr har.symm hbr.symm).1 hc)

end

/-- Normalising fails exactly when two different edits of one file conflict. -/
theorem normalize_fails_iff {edits : List TextEdit}
    (hr : ∀ e ∈ edits, e.range.start ≤ e.range.stop) :
    (∃ err, normalize edits = .error err) ↔
      ∃ a ∈ edits, ∃ b ∈ edits, a.file = b.file ∧ a ≠ b ∧ Conflict a b := by
  constructor
  · rintro ⟨err, h⟩
    exact (exists_conflict_of_normalize_eq_error hr h).1
  · rintro ⟨a, ha, b, hb, hf, hne, hc⟩
    cases h : normalize edits with
    | error err => exact ⟨err, rfl⟩
    | ok N => exact absurd hc (not_conflict_of_normalize_eq_ok hr h a ha b hb hf hne)

end QuickFix
