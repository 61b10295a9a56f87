import Mathlib.Data.List.Induction
import Mathlib.Data.List.Pairwise
import Mathlib.Data.List.Sort
import QuickFix.Proofs.NormalForm

/-!
# Applying the normal form of a list of edits

For a list of edits that normalises, the edits of one file in normal form apply to a text
exactly when the file's recorded edits, with repeats dropped, apply to it. When moreover the
insertions at each offset **join cleanly** (`JoinsCleanly`), both give the same text: the merge
then writes the distinct insertions of an offset once each, in recorded order.

The comparison goes through the sweep: sorting the deduplicated edits by range lines up each
offset's insertions, and joining neighbours with one range (`concatRuns`) changes nothing the
sweep writes (`applySorted_concatRuns`) but gives the normal form back.
-/

namespace QuickFix

open Text TextEdit

/-! ### First occurrences -/

section FirstOccurrences

variable {α : Type} [BEq α] [LawfulBEq α]

/-- Keeping first occurrences, one more element is kept unless it has been seen. -/
theorem eraseDups_concat (as : List α) (b : α) :
    (as ++ [b]).eraseDups = as.eraseDups ++ if b ∈ as then [] else [b] := by
  rw [List.eraseDups_append]
  by_cases h : b ∈ as <;> simp [List.removeAll, h, List.eraseDups_cons]

theorem nodup_eraseDups (l : List α) : l.eraseDups.Nodup := by
  induction l using List.reverseRecOn with
  | nil => simp
  | append_singleton as b ih =>
    rw [eraseDups_concat]
    split_ifs with h
    · simpa using ih
    · refine List.nodup_append.2 ⟨ih, List.nodup_singleton b, ?_⟩
      intro a ha c hc hac
      rw [List.mem_singleton.1 hc, List.mem_eraseDups] at *
      exact h (hac ▸ ha)

theorem filter_eraseDups (l : List α) (p : α → Bool) :
    l.eraseDups.filter p = (l.filter p).eraseDups := by
  induction l using List.reverseRecOn with
  | nil => simp
  | append_singleton as b ih =>
    rw [eraseDups_concat, List.filter_append, ih, List.filter_append]
    by_cases hp : p b
    · have hmem : b ∈ as.filter p ↔ b ∈ as := by simp [hp]
      rw [List.filter_singleton, hp, cond_true, eraseDups_concat]
      simp only [hmem]
      split_ifs <;> simp [hp]
    · have hp' : p b = false := by simpa using hp
      rw [List.filter_singleton, hp', cond_false, List.append_nil]
      split_ifs <;> simp [hp']

/-- Mapping commutes with keeping first occurrences when the map tells the elements apart. -/
theorem map_eraseDups {β : Type} [BEq β] [LawfulBEq β] (f : α → β) (l : List α)
    (hf : ∀ a ∈ l, ∀ b ∈ l, f a = f b → a = b) :
    l.eraseDups.map f = (l.map f).eraseDups := by
  induction l using List.reverseRecOn with
  | nil => simp
  | append_singleton as b ih =>
    have hf' : ∀ a ∈ as, ∀ c ∈ as, f a = f c → a = c := fun a ha c hc =>
      hf a (List.mem_append_left _ ha) c (List.mem_append_left _ hc)
    have hmem : f b ∈ as.map f ↔ b ∈ as := by
      refine ⟨fun h => ?_, List.mem_map_of_mem⟩
      obtain ⟨a, ha, hab⟩ := List.mem_map.1 h
      rwa [← hf a (List.mem_append_left _ ha) b (by simp) hab]
    rw [eraseDups_concat, List.map_append, ih hf', List.map_append, List.map_singleton,
      eraseDups_concat]
    simp only [hmem]
    split_ifs <;> simp

end FirstOccurrences

/-! ### Joining the distinct texts of a run -/

/-- The distinct texts of a run, each once, in order of first appearance, joined. -/
def joinDistinct (ts : List String) : String := String.join ts.eraseDups

/-- A run of texts **joins cleanly** when each text after the first repeats an earlier one
exactly when it equals the distinct earlier texts joined. Appending each new text unless it
equals what has been joined so far, as the merge does, then writes each distinct text once. -/
def JoinsCleanly (ts : List String) : Prop :=
  ∀ pre x post, ts = pre ++ x :: post → pre ≠ [] → (x = joinDistinct pre ↔ x ∈ pre)

theorem JoinsCleanly.of_append {ts us : List String} (h : JoinsCleanly (ts ++ us)) :
    JoinsCleanly ts := by
  intro pre x post hts hpre
  exact h pre x (post ++ us) (by rw [hts]; simp) hpre

theorem joinDistinct_concat (ts : List String) (x : String) :
    joinDistinct (ts ++ [x]) = joinDistinct ts ++ if x ∈ ts then "" else x := by
  rw [joinDistinct, joinDistinct, eraseDups_concat, String.join_append]
  split_ifs <;> simp

/-- On a run that joins cleanly the merge writes each distinct text once, in order. -/
theorem mergeTexts_eq_joinDistinct {ts : List String} (h : JoinsCleanly ts) :
    mergeTexts ts = joinDistinct ts := by
  induction ts using List.reverseRecOn with
  | nil => rfl
  | append_singleton ts x ih =>
    rw [mergeTexts, List.foldl_append, ← mergeTexts, ih h.of_append, joinDistinct_concat,
      List.foldl_cons, List.foldl_nil]
    by_cases hts : ts = []
    · subst hts
      simp [joinDistinct]
    -- the text is a repeat exactly when it equals what has been joined so far
    have hx := h ts x [] rfl hts
    by_cases hmem : x ∈ ts
    · rw [if_pos hmem, String.append_empty, appendNew, if_pos (hx.2 hmem).symm]
    · have hne : joinDistinct ts ≠ x := fun h' => hmem (hx.1 h'.symm)
      rw [if_neg hmem, appendNew, if_neg hne]

-- A repeat of an earlier insertion that follows a different one is written again by the merge.
example : mergeTexts ["a", "b", "b"] = "abb" ∧ joinDistinct ["a", "b", "b"] = "ab" := by
  decide

/-- A run of one repeated text joins cleanly, to that text. -/
theorem joinsCleanly_of_forall_eq {ts : List String} {x : String} (h : ∀ t ∈ ts, t = x) :
    JoinsCleanly ts ∧ (ts ≠ [] → joinDistinct ts = x) := by
  have hjoin : ∀ us : List String, us ≠ [] → (∀ t ∈ us, t = x) → joinDistinct us = x := by
    intro us hus hx
    obtain ⟨u, us', rfl⟩ := List.exists_cons_of_ne_nil hus
    have hu := hx u List.mem_cons_self
    have hrest : us'.filter (fun b => !b == u) = [] :=
      List.filter_eq_nil_iff.2 fun b hb => by simp [hx b (List.mem_cons_of_mem _ hb), hu]
    rw [joinDistinct, List.eraseDups_cons, hrest]
    simp [hu]
  refine ⟨fun pre y post hts hpre => ?_, fun hts => hjoin ts hts h⟩
  have hy : y = x := h y (by simp [hts])
  have hpre' : ∀ t ∈ pre, t = x := fun t ht => h t (by simp [hts, ht])
  obtain ⟨u, us, rfl⟩ := List.exists_cons_of_ne_nil hpre
  rw [hjoin _ hpre hpre', hy]
  simp only [true_iff]
  rw [hpre' u List.mem_cons_self]
  exact List.mem_cons_self

/-! ### Runs of one range -/

/-- Joins neighbours with one range: each run of edits with one range becomes its first edit
with the texts of the whole run, in order. -/
def concatRuns : List TextEdit → List TextEdit
  | [] => []
  | e :: es =>
    match concatRuns es with
    | o :: os =>
      if e.range = o.range then { e with text := e.text ++ o.text } :: os else e :: o :: os
    | [] => [e]

theorem Range.eq_point_of_isEmpty {r : Range} (h : r.isEmpty = true) :
    r = Range.point r.start := by
  obtain ⟨a, b⟩ := r
  simp only [Range.isEmpty, beq_iff_eq] at h
  simp [Range.point, h]

theorem Range.eq_of_le_of_le {r s : Range} (hrs : r.le s = true) (hsr : s.le r = true) :
    r = s := by
  obtain ⟨a, b⟩ := r
  obtain ⟨c, d⟩ := s
  simp only [Range.le, Bool.or_eq_true, Bool.and_eq_true, decide_eq_true_eq, beq_iff_eq]
    at hrs hsr
  simp only [Range.mk.injEq]
  omega

/-- The first joined edit stands for the first edit, with its target. -/
theorem concatRuns_cons (e : TextEdit) (es : List TextEdit) :
    ∃ o os, concatRuns (e :: es) = o :: os ∧ o.target = e.target := by
  rw [concatRuns]
  cases concatRuns es with
  | nil => exact ⟨e, [], rfl, rfl⟩
  | cons o os =>
    dsimp only
    split_ifs
    · exact ⟨_, os, rfl, rfl⟩
    · exact ⟨e, o :: os, rfl, rfl⟩

/-- Unfolds one step of `concatRuns` when the edits after the first are joined into
`o :: os`. -/
theorem concatRuns_cons_of_eq {e o : TextEdit} {es os : List TextEdit}
    (h : concatRuns es = o :: os) :
    concatRuns (e :: es) =
      if e.range = o.range then { e with text := e.text ++ o.text } :: os else e :: o :: os := by
  rw [concatRuns, h]

theorem exists_target_of_mem_concatRuns {es : List TextEdit} :
    ∀ o ∈ concatRuns es, ∃ e ∈ es, e.target = o.target := by
  induction es with
  | nil => simp [concatRuns]
  | cons e es ih =>
    intro o ho
    cases es with
    | nil => exact ⟨e, List.mem_cons_self, by simp_all [concatRuns]⟩
    | cons e' es' =>
      obtain ⟨o', os, hco, -⟩ := concatRuns_cons e' es'
      rw [concatRuns_cons_of_eq hco] at ho
      -- a joined edit keeps the target of its first edit; the others come from the rest
      have htail : ∀ x ∈ o' :: os, ∃ y ∈ e :: e' :: es', y.target = x.target := fun x hx => by
        obtain ⟨y, hy, hyx⟩ := ih x (hco ▸ hx)
        exact ⟨y, List.mem_cons_of_mem _ hy, hyx⟩
      split_ifs at ho
      · rcases List.mem_cons.1 ho with rfl | ho
        · exact ⟨e, List.mem_cons_self, rfl⟩
        · exact htail o (List.mem_cons_of_mem _ ho)
      · rcases List.mem_cons.1 ho with rfl | ho
        · exact ⟨o, List.mem_cons_self, rfl⟩
        · exact htail o ho

theorem exists_range_of_mem {es : List TextEdit} :
    ∀ e ∈ es, ∃ o ∈ concatRuns es, o.range = e.range := by
  induction es with
  | nil => simp
  | cons e es ih =>
    intro x hx
    cases es with
    | nil => exact ⟨e, by simp [concatRuns], by simp_all⟩
    | cons e' es' =>
      obtain ⟨o', os, hco, ho't⟩ := concatRuns_cons e' es'
      rw [concatRuns_cons_of_eq hco]
      split_ifs with hr
      · rcases List.mem_cons.1 hx with rfl | hx
        · exact ⟨_, List.mem_cons_self, rfl⟩
        obtain ⟨y, hy, hyx⟩ := ih x hx
        rw [hco] at hy
        rcases List.mem_cons.1 hy with rfl | hy
        · -- `x` went into the joined edit, which has its range
          exact ⟨_, List.mem_cons_self, hr.trans hyx⟩
        · exact ⟨y, List.mem_cons_of_mem _ hy, hyx⟩
      · rcases List.mem_cons.1 hx with rfl | hx
        · exact ⟨x, List.mem_cons_self, rfl⟩
        obtain ⟨y, hy, hyx⟩ := ih x hx
        exact ⟨y, List.mem_cons_of_mem _ (hco ▸ hy), hyx⟩

/-- Joining the runs of a list sorted by range leaves one edit per range, in increasing order. -/
theorem pairwise_concatRuns {es : List TextEdit}
    (hs : es.Pairwise fun a b => a.range.le b.range) :
    (concatRuns es).Pairwise fun a b => a.range.le b.range ∧ a.range ≠ b.range := by
  induction es with
  | nil => simp [concatRuns]
  | cons e es ih =>
    have ih' := ih (List.pairwise_cons.1 hs).2
    cases es with
    | nil => simp [concatRuns]
    | cons e' es' =>
      obtain ⟨o, os, hco, -⟩ := concatRuns_cons e' es'
      rw [hco] at ih'
      rw [concatRuns_cons_of_eq hco]
      -- every joined edit after `e` has the range of an edit after `e`
      have hle : ∀ x ∈ o :: os, e.range.le x.range := fun x hx => by
        obtain ⟨y, hy, hyx⟩ := exists_target_of_mem_concatRuns x (hco ▸ hx)
        rw [← (target_eq_iff.1 hyx).2]
        exact List.rel_of_pairwise_cons hs hy
      obtain ⟨hoos, hos⟩ := List.pairwise_cons.1 ih'
      split_ifs with hr
      · refine List.pairwise_cons.2 ⟨fun x hx => ?_, hos⟩
        simpa [hr] using hoos x hx
      · refine List.pairwise_cons.2 ⟨fun x hx => ⟨hle x hx, fun hex => ?_⟩, ih'⟩
        rcases List.mem_cons.1 hx with rfl | hx
        · exact hr hex
        -- `o` lies between `e` and `x`, so it would have their range
        have hox := hoos x hx
        exact hr (Range.eq_of_le_of_le (hle o List.mem_cons_self) (by rw [hex]; exact hox.1))

/-- In a list sorted by range, a joined edit carries the texts of all edits with its range, in
order. -/
theorem text_of_mem_concatRuns {es : List TextEdit}
    (hs : es.Pairwise fun a b => a.range.le b.range) :
    ∀ o ∈ concatRuns es,
      o.text = String.join ((es.filter fun x => x.range = o.range).map (·.text)) := by
  induction es with
  | nil => simp [concatRuns]
  | cons e es ih =>
    have ih' := ih (List.pairwise_cons.1 hs).2
    cases es with
    | nil =>
      intro o ho
      simp_all [concatRuns]
    | cons e' es' =>
      obtain ⟨o, os, hco, hot⟩ := concatRuns_cons e' es'
      have hfull := pairwise_concatRuns hs
      rw [hco] at ih'
      rw [concatRuns_cons_of_eq hco] at hfull ⊢
      split_ifs with hr
      · have hoos := pairwise_concatRuns (List.pairwise_cons.1 hs).2
        rw [hco] at hoos
        intro x hx
        rcases List.mem_cons.1 hx with rfl | hx
        · -- the joined edit: `e`, then the run of `o`
          simp [List.filter_cons, hr, ih' o List.mem_cons_self]
        · have hne : e.range ≠ x.range := by
            rw [hr]
            exact (List.rel_of_pairwise_cons hoos hx).2
          rw [List.filter_cons_of_neg (by simpa using hne)]
          exact ih' x (List.mem_cons_of_mem _ hx)
      · rw [if_neg hr] at hfull
        -- the edits after `e` have other ranges: the first of them has the range of `o`
        have hnone : ∀ y ∈ e' :: es', y.range ≠ e.range := by
          intro y hy hye
          have he' : e.range.le e'.range := List.rel_of_pairwise_cons hs List.mem_cons_self
          have he'y : e'.range.le y.range := by
            rcases List.mem_cons.1 hy with rfl | hy
            · simp [Range.le]
            · exact List.rel_of_pairwise_cons (List.pairwise_cons.1 hs).2 hy
          exact hr ((Range.eq_of_le_of_le he' (hye ▸ he'y)).trans (target_eq_iff.1 hot).2.symm)
        intro x hx
        rcases List.mem_cons.1 hx with rfl | hx
        · rw [List.filter_cons_of_pos (by simp),
            List.filter_eq_nil_iff.2 fun y hy => by simpa using hnone y hy]
          simp
        · have hne := (List.rel_of_pairwise_cons hfull hx).2
          rw [List.filter_cons_of_neg (by simpa using hne)]
          exact ih' x hx

theorem splitBytes_zero (cs : List Char) : splitBytes cs 0 = ([], cs) := by
  cases cs with
  | nil => rfl
  | cons c cs => simp [splitBytes, Nat.ne_of_gt c.utf8Size_pos]

theorem takeBytes_zero (cs : List Char) : takeBytes cs 0 = [] := by
  simp [takeBytes, splitBytes_zero]

theorem dropBytes_zero (cs : List Char) : dropBytes cs 0 = cs := by
  simp [dropBytes, splitBytes_zero]

/-- Two insertions at one offset write what one insertion of both texts writes. -/
theorem applySorted_cons_cons_of_isEmpty {rest : List Char} {cursor : Nat} {a b : TextEdit}
    {es : List TextEdit} (hab : a.range = b.range) (ha : a.range.isEmpty = true) :
    applySorted rest cursor (a :: b :: es) =
      applySorted rest cursor ({ a with text := a.text ++ b.text } :: es) := by
  have hstop : a.range.stop = a.range.start := by
    simp only [Range.isEmpty, beq_iff_eq] at ha
    exact ha.symm
  by_cases hc : a.range.start < cursor
  · simp [applySorted, hc]
  have hle := Nat.not_lt.1 hc
  rw [applySorted_cons_of_le hle,
    @applySorted_cons_of_le _ _ { a with text := a.text ++ b.text } _ hle]
  -- the second insertion starts where the first stops, so it cuts nothing
  rw [applySorted_cons_of_le (by rw [← hab]; omega)]
  simp only [← hab, hstop, Nat.sub_self, dropBytes_zero, takeBytes_zero]
  cases applySorted _ a.range.start es <;> simp [Except.map]

/-- Joining the runs of one range changes nothing the sweep writes when no two edits conflict:
the edits of one range are then insertions. -/
theorem applySorted_concatRuns {es : List TextEdit} (hr : ∀ e ∈ es, e.range.start ≤ e.range.stop)
    (hc : es.Pairwise fun a b => ¬ Conflict a b) (rest : List Char) (cursor : Nat) :
    applySorted rest cursor (concatRuns es) = applySorted rest cursor es := by
  induction es generalizing rest cursor with
  | nil => rfl
  | cons e es ih =>
    have ih' := ih (fun x hx => hr x (List.mem_cons_of_mem _ hx)) (List.pairwise_cons.1 hc).2
    -- the sweep reads what follows `e` only through the sweep after `e`
    have htail : applySorted rest cursor (e :: concatRuns es) =
        applySorted rest cursor (e :: es) := by
      by_cases hlt : e.range.start < cursor
      · simp [applySorted, hlt]
      · rw [applySorted_cons_of_le (Nat.not_lt.1 hlt), applySorted_cons_of_le (Nat.not_lt.1 hlt),
          ih']
    cases es with
    | nil => exact htail
    | cons e' es' =>
      obtain ⟨o, os, hco, hot⟩ := concatRuns_cons e' es'
      rw [hco] at htail
      rw [concatRuns_cons_of_eq hco]
      split_ifs with hro
      · -- `e` and the run after it share a range, which is empty as they do not conflict
        have hre : e.range = e'.range := hro.trans (target_eq_iff.1 hot).2
        have hnc := List.rel_of_pairwise_cons hc List.mem_cons_self
        have hempty : e.range.isEmpty = true := by
          simpa using mt (conflict_of_range_eq_iff hre (hr e List.mem_cons_self)).2 hnc
        rw [← applySorted_cons_cons_of_isEmpty hro hempty]
        exact htail
      · exact htail

/-! ### The edits of one file -/

/-- The edits of one file, in list order. -/
def editsOf (f : FileId) (es : List TextEdit) : List TextEdit := es.filter fun e => e.file = f

theorem mem_editsOf {f : FileId} {es : List TextEdit} {e : TextEdit} :
    e ∈ editsOf f es ↔ e ∈ es ∧ e.file = f := by
  simp [editsOf]

theorem fits_congr {cs : List Char} {a b : TextEdit} (h : a.range = b.range) :
    Fits cs a ↔ Fits cs b := by
  simp only [Fits, h]

/-- Edits that fit the text are applied by the sweep over them sorted by range. -/
theorem applyEdits_eq_map_applySorted {source : String} {es : List TextEdit}
    (hfit : ∀ e ∈ es, Fits source.toList e) :
    applyEdits source es =
      (applySorted source.toList 0 (es.mergeSort fun a b => a.range.le b.range)).map
        String.ofList := by
  unfold applyEdits
  split
  · rename_i hnil
    rw [List.isEmpty_iff.1 hnil]
    simp [applySorted, Except.map]
  · dsimp only
    rw [(checkBounds_eq_none_iff _ _).2 hfit]

section

variable {edits N : List TextEdit} {f : FileId}

/-- The normalised edits of a file have the ranges of its recorded edits. -/
theorem exists_range_editsOf_iff (hr : ∀ e ∈ edits, e.range.start ≤ e.range.stop)
    (h : normalize edits = .ok N) (r : Range) :
    (∃ o ∈ editsOf f N, o.range = r) ↔ ∃ e ∈ (editsOf f edits).eraseDups, e.range = r := by
  obtain ⟨-, -, htargets, -, -⟩ := normalize_eq_ok_spec hr h
  simpa [mem_editsOf, List.mem_eraseDups, target, and_assoc] using htargets (f, r)

/-- Within a file, the normalised edits follow one another by range. -/
theorem pairwise_editsOf_normalize (hr : ∀ e ∈ edits, e.range.start ≤ e.range.stop)
    (h : normalize edits = .ok N) :
    (editsOf f N).Pairwise fun a b => a.range.le b.range = true ∧ a.range ≠ b.range ∧
      a.range.stop ≤ b.range.start := by
  obtain ⟨hsorted, hchain, -⟩ := normalize_eq_ok_spec hr h
  refine List.Pairwise.imp_of_mem (fun ha hb hab => ?_)
    ((hsorted.and hchain).sublist List.filter_sublist)
  obtain ⟨⟨hle, hne⟩, hstop⟩ := hab
  have hf := (mem_editsOf.1 ha).2.trans (mem_editsOf.1 hb).2.symm
  exact ⟨rangeLe_of_le hle hf, fun hr' => hne (target_eq_iff.2 ⟨hf, hr'⟩), hstop hf⟩

/-- After a successful normalisation the recorded edits of a file, repeats dropped, never
conflict. -/
theorem pairwise_not_conflict_eraseDups (hr : ∀ e ∈ edits, e.range.start ≤ e.range.stop)
    (h : normalize edits = .ok N) :
    (editsOf f edits).eraseDups.Pairwise fun a b => ¬ Conflict a b := by
  refine (nodup_eraseDups _).pairwise_of_forall_ne fun a ha b hb hab => ?_
  rw [List.mem_eraseDups, mem_editsOf] at ha hb
  exact not_conflict_of_normalize_eq_ok hr h a ha.1 b hb.1 (ha.2.trans hb.2.symm) hab

/-- The normalised edits of a file can be applied to a text exactly when its recorded edits,
repeats dropped, can: both never conflict and they have the same ranges. -/
theorem applicable_editsOf_iff (hr : ∀ e ∈ edits, e.range.start ≤ e.range.stop)
    (h : normalize edits = .ok N) (cs : List Char) :
    Applicable cs (editsOf f N) ↔ Applicable cs (editsOf f edits).eraseDups := by
  have hfits : (∀ e ∈ editsOf f N, Fits cs e) ↔ ∀ e ∈ (editsOf f edits).eraseDups, Fits cs e := by
    constructor
    · intro hN e he
      obtain ⟨o, ho, hor⟩ := (exists_range_editsOf_iff hr h e.range).2 ⟨e, he, rfl⟩
      exact (fits_congr hor).1 (hN o ho)
    · intro hD o ho
      obtain ⟨e, he, her⟩ := (exists_range_editsOf_iff hr h o.range).1 ⟨o, ho, rfl⟩
      exact (fits_congr her).1 (hD e he)
  have hN : (editsOf f N).Pairwise fun a b => ¬ Conflict a b :=
    (pairwise_editsOf_normalize hr h).imp fun hab => not_conflict_of_stop_le_start hab.2.2
  exact ⟨fun ⟨hf, _⟩ => ⟨hfits.1 hf, pairwise_not_conflict_eraseDups hr h⟩,
    fun ⟨hf, _⟩ => ⟨hfits.2 hf, hN⟩⟩

/-- A normalised edit of a non-empty range has the text of every recorded edit of its
range. -/
theorem text_eq_of_normalize_of_nonempty (hr : ∀ e ∈ edits, e.range.start ≤ e.range.stop)
    (h : normalize edits = .ok N) {o : TextEdit} (ho : o ∈ N) (hne : o.range.isEmpty = false) :
    ∀ e ∈ edits, e.target = o.target → e.text = o.text := by
  obtain ⟨-, -, htargets, htext, hagree⟩ := normalize_eq_ok_spec hr h
  obtain ⟨e₀, he₀, he₀o⟩ := (htargets o.target).1 ⟨o, ho, rfl⟩
  have hne₀ : e₀.range.isEmpty = false := by rw [(target_eq_iff.1 he₀o).2]; exact hne
  -- the run of the range has the one text of `e₀`, so the merge gives that text
  have hsame : ∀ t ∈ targetTexts edits o.target, t = e₀.text := by
    intro t ht
    obtain ⟨y, hy, rfl⟩ := List.mem_map.1 ht
    rw [List.mem_filter, decide_eq_true_eq] at hy
    exact (hagree e₀ he₀ y hy.1 (he₀o.trans hy.2.symm) hne₀).symm
  have hrun : targetTexts edits o.target ≠ [] :=
    List.ne_nil_of_mem (List.mem_map_of_mem (List.mem_filter.2 ⟨he₀, by simpa using he₀o⟩))
  obtain ⟨hclean, hjoin⟩ := joinsCleanly_of_forall_eq hsame
  have hotext : o.text = e₀.text := by
    rw [htext o ho, mergeTexts_eq_joinDistinct hclean, hjoin hrun]
  intro e he heo
  have he₀e : e.target = e₀.target := heo.trans he₀o.symm
  rw [hotext]
  exact hagree e he e₀ he₀ he₀e (by rw [(target_eq_iff.1 he₀e).2]; exact hne₀)

/-- A normalised edit whose run joins cleanly, as every run of a non-empty range does, carries
the run's distinct texts once each, in order. -/
theorem text_eq_joinDistinct_of_normalize (hr : ∀ e ∈ edits, e.range.start ≤ e.range.stop)
    (h : normalize edits = .ok N) {o : TextEdit} (ho : o ∈ N)
    (hclean : o.range.isEmpty = true → JoinsCleanly (targetTexts edits o.target)) :
    o.text = joinDistinct (targetTexts edits o.target) := by
  obtain ⟨-, -, -, htext, -⟩ := normalize_eq_ok_spec hr h
  cases hempty : o.range.isEmpty with
  | true => rw [htext o ho, mergeTexts_eq_joinDistinct (hclean hempty)]
  | false =>
    -- a non-empty range has one text, which joins cleanly
    have hsame : ∀ t ∈ targetTexts edits o.target, t = o.text := by
      intro t ht
      obtain ⟨y, hy, rfl⟩ := List.mem_map.1 ht
      rw [List.mem_filter, decide_eq_true_eq] at hy
      exact text_eq_of_normalize_of_nonempty hr h ho hempty y hy.1 hy.2
    rw [← mergeTexts_eq_joinDistinct (joinsCleanly_of_forall_eq hsame).1, htext o ho]

/-- Sorted by range and joined run by run, the recorded edits of a file with repeats dropped
carry, for each target, its distinct texts once each, in order. -/
theorem text_of_mem_concatRuns_eraseDups :
    ∀ o ∈ concatRuns ((editsOf f edits).eraseDups.mergeSort fun a b => a.range.le b.range),
      o.file = f ∧ o.text = joinDistinct (targetTexts edits o.target) := by
  have hperm := List.mergeSort_perm (editsOf f edits).eraseDups fun a b => a.range.le b.range
  intro o ho
  obtain ⟨e, he, heo⟩ := exists_target_of_mem_concatRuns o ho
  have he' := mem_editsOf.1 (List.mem_eraseDups.1 (hperm.mem_iff.1 he))
  have hof : o.file = f := (target_eq_iff.1 heo).1 ▸ he'.2
  refine ⟨hof, ?_⟩
  rw [text_of_mem_concatRuns (List.pairwise_mergeSort rangeLe_trans rangeLe_total _) o ho]
  -- sorting keeps the run of one range in order
  rw [List.filter_mergeSort_of_le _ rangeLe_trans rangeLe_total _ _ fun a _ b _ ha hb => by
    simp only [decide_eq_true_eq] at ha hb
    simp [ha, hb, Range.le]]
  -- the run of a range in the file is the run of the target
  have hrun : (editsOf f edits).filter (fun x => x.range = o.range) =
      edits.filter fun x => x.target = o.target := by
    rw [editsOf, List.filter_filter]
    refine List.filter_congr fun x _ => ?_
    simp [target, hof, Bool.and_comm]
  rw [filter_eraseDups, hrun, map_eraseDups _ _ fun a ha b hb hab => ?_]
  · rfl
  · rw [List.mem_filter, decide_eq_true_eq] at ha hb
    exact eq_of_target_eq (ha.2.trans hb.2.symm) hab

/-- When the insertions at every offset join cleanly, the normalised edits of a file are the
file's recorded edits with repeats dropped, sorted by range and joined run by run. -/
theorem editsOf_normalize_eq_concatRuns (hr : ∀ e ∈ edits, e.range.start ≤ e.range.stop)
    (h : normalize edits = .ok N)
    (hclean : ∀ p, JoinsCleanly (targetTexts edits (f, Range.point p))) :
    editsOf f N =
      concatRuns ((editsOf f edits).eraseDups.mergeSort fun a b => a.range.le b.range) := by
  have hperm := List.mergeSort_perm (editsOf f edits).eraseDups fun a b => a.range.le b.range
  -- both lists are sorted by range, one edit per range
  have : Std.Irrefl fun a b : TextEdit => a.range.le b.range = true ∧ a.range ≠ b.range :=
    ⟨fun _ hab => hab.2 rfl⟩
  have : Std.Antisymm fun a b : TextEdit => a.range.le b.range = true ∧ a.range ≠ b.range :=
    ⟨fun _ _ hab hba => absurd (Range.eq_of_le_of_le hab.1 hba.1) hab.2⟩
  have hsN : (editsOf f N).Pairwise fun a b => a.range.le b.range = true ∧ a.range ≠ b.range :=
    (pairwise_editsOf_normalize hr h).imp fun hab => ⟨hab.1, hab.2.1⟩
  have hsC := pairwise_concatRuns (List.pairwise_mergeSort rangeLe_trans rangeLe_total
    (editsOf f edits).eraseDups)
  -- and an edit of either list is fixed by its range: file `f`, the distinct texts of its target
  have hN : ∀ o ∈ editsOf f N, o.file = f ∧ o.text = joinDistinct (targetTexts edits o.target) := by
    intro o ho
    have ho' := mem_editsOf.1 ho
    refine ⟨ho'.2, text_eq_joinDistinct_of_normalize hr h ho'.1 fun hempty => ?_⟩
    rw [target, ho'.2, Range.eq_point_of_isEmpty hempty]
    exact hclean _
  have huniq : ∀ x y : TextEdit, x.file = f ∧ x.text = joinDistinct (targetTexts edits x.target) →
      y.file = f ∧ y.text = joinDistinct (targetTexts edits y.target) → x.range = y.range →
        x = y := by
    intro x y hx hy hxy
    have hxt : x.target = y.target := target_eq_iff.2 ⟨hx.1.trans hy.1.symm, hxy⟩
    exact eq_of_target_eq hxt (by rw [hx.2, hy.2, hxt])
  refine List.Pairwise.eq_of_mem_iff hsN hsC fun o => ⟨fun ho => ?_, fun ho => ?_⟩
  · obtain ⟨e, he, her⟩ := (exists_range_editsOf_iff hr h o.range).1 ⟨o, ho, rfl⟩
    obtain ⟨o', ho', ho'r⟩ := exists_range_of_mem e (hperm.mem_iff.2 he)
    rwa [huniq o o' (hN o ho) (text_of_mem_concatRuns_eraseDups o' ho') (her.symm.trans ho'r.symm)]
  · obtain ⟨e, he, heo⟩ := exists_target_of_mem_concatRuns o ho
    obtain ⟨o', ho', ho'r⟩ := (exists_range_editsOf_iff hr h e.range).2 ⟨e, hperm.mem_iff.1 he, rfl⟩
    rwa [huniq o o' (text_of_mem_concatRuns_eraseDups o ho) (hN o' ho')
      ((target_eq_iff.1 heo).2.symm.trans ho'r.symm)]

/-- **Applying the normal form of one file.** After a successful normalisation the file's
normalised edits apply to a text exactly when its recorded edits with repeats dropped do, and
when the insertions at every offset join cleanly they give the same text. -/
theorem applyEdits_editsOf_normalize (hr : ∀ e ∈ edits, e.range.start ≤ e.range.stop)
    (h : normalize edits = .ok N) (t : String) :
    ((∃ s, applyEdits t (editsOf f N) = .ok s) ↔
      ∃ s, applyEdits t (editsOf f edits).eraseDups = .ok s) ∧
    ((∀ p, JoinsCleanly (targetTexts edits (f, Range.point p))) →
      ∀ s, applyEdits t (editsOf f N) = .ok s ↔
        applyEdits t (editsOf f edits).eraseDups = .ok s) := by
  have hvN : ∀ e ∈ editsOf f N, e.range.start ≤ e.range.stop := fun e he =>
    range_valid_of_normalize_eq_ok hr h e (mem_editsOf.1 he).1
  have hvD : ∀ e ∈ (editsOf f edits).eraseDups, e.range.start ≤ e.range.stop := fun e he =>
    hr e (mem_editsOf.1 (List.mem_eraseDups.1 he)).1
  have hok : (∃ s, applyEdits t (editsOf f N) = .ok s) ↔
      ∃ s, applyEdits t (editsOf f edits).eraseDups = .ok s := by
    rw [(applyEdits_correct t _ hvN).1, (applyEdits_correct t _ hvD).1]
    exact applicable_editsOf_iff hr h t.toList
  refine ⟨hok, fun hclean s => ?_⟩
  by_cases happ : Applicable t.toList (editsOf f N)
  · -- both are written by the sweep, over the same edits once the runs are joined
    have happ' := (applicable_editsOf_iff hr h t.toList).1 happ
    have hsorted : (editsOf f N).mergeSort (fun a b => a.range.le b.range) = editsOf f N :=
      List.mergeSort_of_pairwise ((pairwise_editsOf_normalize hr h).imp fun hab => hab.1)
    have hperm := List.mergeSort_perm (editsOf f edits).eraseDups fun a b => a.range.le b.range
    have hcD : ((editsOf f edits).eraseDups.mergeSort fun a b => a.range.le b.range).Pairwise
        fun a b => ¬ Conflict a b :=
      happ'.2.perm hperm.symm fun hab hc => hab (conflict_symm hc)
    rw [applyEdits_eq_map_applySorted happ.1, applyEdits_eq_map_applySorted happ'.1, hsorted,
      editsOf_normalize_eq_concatRuns hr h hclean,
      applySorted_concatRuns (fun e he => hvD e (hperm.mem_iff.1 he)) hcD]
  · -- neither applies
    have hN : applyEdits t (editsOf f N) ≠ .ok s := fun hs =>
      happ ((applyEdits_correct t _ hvN).1.1 ⟨s, hs⟩)
    have hD : applyEdits t (editsOf f edits).eraseDups ≠ .ok s := fun hs =>
      happ ((applicable_editsOf_iff hr h t.toList).2 ((applyEdits_correct t _ hvD).1.1 ⟨s, hs⟩))
    exact ⟨fun hs => absurd hs hN, fun hs => absurd hs hD⟩

end

/-! ### Normalising -/

/-- The edits `N` are a **normal form** of the recorded edits `edits`. -/
structure IsNormalForm (edits N : List TextEdit) : Prop where
  /-- Sorted by file name, then by start, then by stop. -/
  sorted : N.Pairwise fun a b =>
    a.file.name < b.file.name ∨ a.file = b.file ∧ a.range.le b.range = true
  /-- No two edits share a file and a range. -/
  distinct : N.Pairwise fun a b => a.target ≠ b.target
  /-- Within a file each edit starts at or after every earlier one stops. -/
  chained : N.Pairwise fun a b => a.file = b.file → a.range.stop ≤ b.range.start
  /-- The targets are those of the recorded edits. -/
  targets : ∀ k, (∃ o ∈ N, o.target = k) ↔ ∃ e ∈ edits, e.target = k
  /-- An edit of a non-empty range has the text of every recorded edit of its range. -/
  text_of_nonempty : ∀ o ∈ N, o.range.isEmpty = false →
    ∀ e ∈ edits, e.target = o.target → e.text = o.text
  /-- An edit whose run of texts joins cleanly has the run's distinct texts once each, in
  order. -/
  text_of_joinsCleanly : ∀ o ∈ N, JoinsCleanly (targetTexts edits o.target) →
    o.text = joinDistinct (targetTexts edits o.target)
  /-- The edits of a file apply to a text exactly when its recorded edits with repeats dropped
  do, and give the same text when the insertions at every offset join cleanly. -/
  apply : ∀ f t,
    ((∃ s, applyEdits t (editsOf f N) = .ok s) ↔
      ∃ s, applyEdits t (editsOf f edits).eraseDups = .ok s) ∧
    ((∀ p, JoinsCleanly (targetTexts edits (f, Range.point p))) →
      ∀ s, applyEdits t (editsOf f N) = .ok s ↔ applyEdits t (editsOf f edits).eraseDups = .ok s)

/-- **Normalising a list of edits.** For edits whose ranges start no later than they stop,
normalising fails, always with an overlap, exactly when two different edits of one file
conflict; when it succeeds it gives a normal form of the edits. -/
theorem normalize_correct (edits : List TextEdit)
    (hr : ∀ e ∈ edits, e.range.start ≤ e.range.stop) :
    ((∃ err, normalize edits = .error err) ↔
      ∃ a ∈ edits, ∃ b ∈ edits, a.file = b.file ∧ a ≠ b ∧ Conflict a b) ∧
    (∀ err, normalize edits = .error err → ∃ f r r', err = .overlapping f r r') ∧
    ∀ N, normalize edits = .ok N → IsNormalForm edits N := by
  refine ⟨normalize_fails_iff hr, fun err h => (exists_conflict_of_normalize_eq_error hr h).2,
    fun N h => ?_⟩
  obtain ⟨hsorted, hchain, htargets, htext, -⟩ := normalize_eq_ok_spec hr h
  exact {
    sorted := hsorted.imp fun hab => le_iff.1 hab.1
    distinct := hsorted.imp And.right
    chained := hchain
    targets := htargets
    text_of_nonempty := fun o ho hne => text_eq_of_normalize_of_nonempty hr h ho hne
    text_of_joinsCleanly := fun o ho hclean => by
      rw [htext o ho, mergeTexts_eq_joinDistinct hclean]
    apply := fun f t => applyEdits_editsOf_normalize hr h t }

/-- Two insertions at one offset around a replacement. -/
theorem normalize_correct_inserts_around_replace :
    (∀ e ∈ ([⟨⟨"A.java"⟩, ⟨4, 4⟩, "a;"⟩, ⟨⟨"A.java"⟩, ⟨6, 8⟩, "X"⟩,
        ⟨⟨"A.java"⟩, ⟨4, 4⟩, "b;"⟩] : List TextEdit), e.range.start ≤ e.range.stop) ∧
    ((∃ err, normalize [⟨⟨"A.java"⟩, ⟨4, 4⟩, "a;"⟩, ⟨⟨"A.java"⟩, ⟨6, 8⟩, "X"⟩,
        ⟨⟨"A.java"⟩, ⟨4, 4⟩, "b;"⟩] = .error err) ↔
      ∃ a ∈ ([⟨⟨"A.java"⟩, ⟨4, 4⟩, "a;"⟩, ⟨⟨"A.java"⟩, ⟨6, 8⟩, "X"⟩,
          ⟨⟨"A.java"⟩, ⟨4, 4⟩, "b;"⟩] : List TextEdit),
        ∃ b ∈ ([⟨⟨"A.java"⟩, ⟨4, 4⟩, "a;"⟩, ⟨⟨"A.java"⟩, ⟨6, 8⟩, "X"⟩,
          ⟨⟨"A.java"⟩, ⟨4, 4⟩, "b;"⟩] : List TextEdit),
          a.file = b.file ∧ a ≠ b ∧ Conflict a b) ∧
    (∀ err, normalize [⟨⟨"A.java"⟩, ⟨4, 4⟩, "a;"⟩, ⟨⟨"A.java"⟩, ⟨6, 8⟩, "X"⟩,
        ⟨⟨"A.java"⟩, ⟨4, 4⟩, "b;"⟩] = .error err → ∃ f r r', err = .overlapping f r r') ∧
    ∀ N, normalize [⟨⟨"A.java"⟩, ⟨4, 4⟩, "a;"⟩, ⟨⟨"A.java"⟩, ⟨6, 8⟩, "X"⟩,
        ⟨⟨"A.java"⟩, ⟨4, 4⟩, "b;"⟩] = .ok N →
      IsNormalForm [⟨⟨"A.java"⟩, ⟨4, 4⟩, "a;"⟩, ⟨⟨"A.java"⟩, ⟨6, 8⟩, "X"⟩,
        ⟨⟨"A.java"⟩, ⟨4, 4⟩, "b;"⟩] N :=
  ⟨by decide, normalize_correct _ (by decide)⟩

/-- The normal form does not always report the bounds error of the recorded edits: sorting puts
an edit that lies further out after one that lies less far out. -/
theorem normalize_apply_reports_first_by_range :
    normalize [⟨⟨"A.java"⟩, ⟨7, 8⟩, "x"⟩, ⟨⟨"A.java"⟩, ⟨5, 6⟩, "y"⟩] =
        .ok [⟨⟨"A.java"⟩, ⟨5, 6⟩, "y"⟩, ⟨⟨"A.java"⟩, ⟨7, 8⟩, "x"⟩] ∧
      applyEdits "ab" (editsOf ⟨"A.java"⟩ [⟨⟨"A.java"⟩, ⟨5, 6⟩, "y"⟩, ⟨⟨"A.java"⟩, ⟨7, 8⟩, "x"⟩]) =
        .error (.outOfBounds ⟨"A.java"⟩ ⟨5, 6⟩ 2) ∧
      applyEdits "ab"
          (editsOf ⟨"A.java"⟩ [⟨⟨"A.java"⟩, ⟨7, 8⟩, "x"⟩, ⟨⟨"A.java"⟩, ⟨5, 6⟩, "y"⟩]).eraseDups =
        .error (.outOfBounds ⟨"A.java"⟩ ⟨7, 8⟩ 2) := by
  have hsort : sort [⟨⟨"A.java"⟩, ⟨7, 8⟩, "x"⟩, ⟨⟨"A.java"⟩, ⟨5, 6⟩, "y"⟩] =
      [⟨⟨"A.java"⟩, ⟨5, 6⟩, "y"⟩, ⟨⟨"A.java"⟩, ⟨7, 8⟩, "x"⟩] := by
    simp [sort, List.mergeSort, List.MergeSort.Internal.splitInTwo, List.merge, TextEdit.le]
    decide
  refine ⟨?_, by decide, by decide⟩
  rw [normalize, hsort]
  decide

end QuickFix
