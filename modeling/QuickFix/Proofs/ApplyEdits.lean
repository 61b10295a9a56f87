import Mathlib.Data.List.Sort
import QuickFix.Edit.Apply

/-!
# Applying edits in one sweep

`applyEdits` checks the edits against the text, sorts them by range (ties in their given order)
and writes the text in one forward sweep with a cursor. This file proves that the sweep means
what it should: the edits are applied exactly when each fits the text and no two of them
**conflict** (neither stops at or before the other starts), and the text it writes is the text
obtained by splicing the edits in one at a time, back to front, in decreasing order of start, stop
and position in the list. A check error always names the first edit, in list order, that does not
fit, before any overlap is looked at.

The sweep works on byte offsets, so the first part relates the byte-offset cuts of `Text` to cuts
of the character list: an offset is a **character boundary** when a prefix of the text measures
exactly that many bytes, and at a boundary `splitBytes` cuts there (`splitBytes_append_byteSize`).
-/

namespace QuickFix

open Text

/-! ### Cutting text at a character boundary -/

/-- An offset is a **character boundary** of a text when some prefix of the text is encoded in
exactly that many bytes. -/
def IsCharBoundary (cs : List Char) (n : Nat) : Prop :=
  ∃ pre suf, cs = pre ++ suf ∧ byteSize pre = n

theorem byteSize_eq_zero_iff {cs : List Char} : byteSize cs = 0 ↔ cs = [] := by
  cases cs with
  | nil => simp
  | cons c cs => simp [Char.utf8Size_pos c |>.ne']

/-- Cutting after a prefix's own size gives back the prefix: no character has an empty
encoding, so the cut cannot reach into what follows. -/
theorem splitBytes_append_byteSize (pre suf : List Char) :
    splitBytes (pre ++ suf) (byteSize pre) = (pre, suf) := by
  induction pre with
  | nil =>
    cases suf with
    | nil => rfl
    | cons c suf => simp [splitBytes, (Char.utf8Size_pos c).ne']
  | cons c pre ih =>
    have hsub : c.utf8Size + byteSize pre - c.utf8Size = byteSize pre := by omega
    simp [splitBytes, hsub, ih]

theorem takeBytes_append_byteSize (pre suf : List Char) :
    takeBytes (pre ++ suf) (byteSize pre) = pre := by
  simp [takeBytes, splitBytes_append_byteSize]

theorem dropBytes_append_byteSize (pre suf : List Char) :
    dropBytes (pre ++ suf) (byteSize pre) = suf := by
  simp [dropBytes, splitBytes_append_byteSize]

/-- The model's boundary test decides `IsCharBoundary`. -/
theorem isBoundary_iff (cs : List Char) (n : Nat) :
    isBoundary cs n = true ↔ IsCharBoundary cs n := by
  constructor
  · intro h
    exact ⟨takeBytes cs n, dropBytes cs n, (splitBytes_append cs n).symm,
      by simpa [isBoundary] using h⟩
  · rintro ⟨pre, suf, rfl, rfl⟩
    simp [isBoundary, takeBytes_append_byteSize]

/-- Of two prefixes of one text, the one with fewer bytes is a prefix of the other. -/
theorem exists_append_of_byteSize_le {pre rest pre' rest' : List Char}
    (h : pre ++ rest = pre' ++ rest') (hle : byteSize pre ≤ byteSize pre') :
    ∃ mid, rest = mid ++ rest' ∧ pre' = pre ++ mid := by
  rcases List.append_eq_append_iff.1 h with ⟨mid, rfl, hrest⟩ | ⟨mid, rfl, hrest'⟩
  · exact ⟨mid, hrest, rfl⟩
  · -- `pre` is `pre'` and more: the extra part has no bytes, so it is empty
    have hmid : byteSize mid = 0 := by
      simp only [byteSize_append] at hle
      omega
    rw [byteSize_eq_zero_iff.1 hmid] at hrest' ⊢
    exact ⟨[], by simpa using hrest'.symm, by simp⟩

/-- A boundary at or after the end of a prefix falls inside the rest of the text. -/
theorem exists_cut_of_isCharBoundary {pre rest : List Char} {n : Nat}
    (hb : IsCharBoundary (pre ++ rest) n) (hle : byteSize pre ≤ n) :
    ∃ mid rest', rest = mid ++ rest' ∧ byteSize pre + byteSize mid = n := by
  obtain ⟨pre', rest', h, rfl⟩ := hb
  obtain ⟨mid, hrest, rfl⟩ := exists_append_of_byteSize_le h hle
  exact ⟨mid, rest', hrest, by simp⟩

/-! ### What the sweep is compared with -/

/-- An edit **fits** a text when it stops within it and starts and stops at character
boundaries. -/
def Fits (cs : List Char) (e : TextEdit) : Prop :=
  e.range.stop ≤ byteSize cs ∧ IsCharBoundary cs e.range.start ∧ IsCharBoundary cs e.range.stop

/-- Two edits **conflict** when neither stops at or before the other starts. -/
def Conflict (a b : TextEdit) : Prop :=
  ¬ a.range.stop ≤ b.range.start ∧ ¬ b.range.stop ≤ a.range.start

/-- Edits can be applied to a text when each fits it and no two of them conflict. -/
def Applicable (cs : List Char) (edits : List TextEdit) : Prop :=
  (∀ e ∈ edits, Fits cs e) ∧ edits.Pairwise fun a b => ¬ Conflict a b

/-- The error that reports an edit that does not fit: reaching past the end comes first, then a
start that cuts a character, then a stop that does. -/
def BoundsError (cs : List Char) (e : TextEdit) (err : EditError) : Prop :=
  (byteSize cs < e.range.stop ∧ err = .outOfBounds e.file e.range (byteSize cs)) ∨
  (e.range.stop ≤ byteSize cs ∧ ¬ IsCharBoundary cs e.range.start ∧
    err = .splitsCharacter e.file e.range.start) ∨
  (e.range.stop ≤ byteSize cs ∧ IsCharBoundary cs e.range.start ∧
    ¬ IsCharBoundary cs e.range.stop ∧ err = .splitsCharacter e.file e.range.stop)

/-- The text with the bytes of the edit's range replaced by the edit's text. -/
def TextEdit.spliceInto (e : TextEdit) (cs : List Char) : List Char :=
  takeBytes cs e.range.start ++ e.text.toList ++ dropBytes cs e.range.stop

/-- Edits tagged with their positions, in order of start, then stop, then position. -/
def editOrder (a b : TextEdit × Nat) : Bool :=
  a.1.range.start < b.1.range.start ||
    (a.1.range.start == b.1.range.start &&
      (a.1.range.stop < b.1.range.stop || (a.1.range.stop == b.1.range.stop && a.2 ≤ b.2)))

/-- The text after splicing in the edits one at a time, **back to front**: `foldr` over the edits
in increasing order of start, stop and position splices the last of them first. -/
def applyBackToFront (source : String) (edits : List TextEdit) : String :=
  String.ofList ((edits.zipIdx.mergeSort editOrder).foldr (fun e cs => e.1.spliceInto cs)
    source.toList)

/-! ### The checks before the sweep -/

theorem boundsError?_eq_none_iff (cs : List Char) (e : TextEdit) :
    boundsError? cs e = none ↔ Fits cs e := by
  simp only [boundsError?, Fits, ← isBoundary_iff]
  split_ifs with h1 h2 h3 <;> simp_all

/-- An edit that does not fit is reported by the error `BoundsError` describes. -/
theorem boundsError?_of_not_fits {cs : List Char} {e : TextEdit} (h : ¬ Fits cs e) :
    ∃ err, boundsError? cs e = some err ∧ BoundsError cs e err := by
  simp only [boundsError?, BoundsError, Fits, ← isBoundary_iff] at h ⊢
  split_ifs with h1 h2 h3 <;> simp_all

theorem checkBounds_eq_none_iff (cs : List Char) (edits : List TextEdit) :
    checkBounds cs edits = none ↔ ∀ e ∈ edits, Fits cs e := by
  simp [checkBounds, boundsError?_eq_none_iff]

/-- The check reports the first edit, in list order, that does not fit. -/
theorem checkBounds_first {cs : List Char} {pre : List TextEdit} {e : TextEdit}
    (post : List TextEdit) (hpre : ∀ x ∈ pre, Fits cs x) (he : ¬ Fits cs e) :
    ∃ err, checkBounds cs (pre ++ e :: post) = some err ∧ BoundsError cs e err := by
  obtain ⟨err, herr, hbe⟩ := boundsError?_of_not_fits he
  have hnone : pre.findSome? (boundsError? cs) = none := (checkBounds_eq_none_iff cs pre).2 hpre
  refine ⟨err, ?_, hbe⟩
  simp [checkBounds, List.findSome?_append, hnone, herr]

/-! ### The sweep -/

/-- One step of the sweep: an edit at or after the cursor is written after the text up to its
start, and the sweep goes on from its stop. -/
theorem applySorted_cons_of_le {rest : List Char} {cursor : Nat} {e : TextEdit}
    {es : List TextEdit} (h : cursor ≤ e.range.start) :
    applySorted rest cursor (e :: es) =
      (applySorted (dropBytes (dropBytes rest (e.range.start - cursor))
          (e.range.stop - e.range.start)) e.range.stop es).map
        fun out => takeBytes rest (e.range.start - cursor) ++ e.text.toList ++ out := by
  simp [applySorted, Nat.not_lt.2 h, takeBytes, dropBytes]

/-- The sweep goes through exactly when every edit starts at or after the cursor and at or after
the stop of every edit before it; the text plays no part. -/
theorem applySorted_ok_iff (rest : List Char) (cursor : Nat) (es : List TextEdit)
    (hr : ∀ e ∈ es, e.range.start ≤ e.range.stop) :
    (∃ out, applySorted rest cursor es = .ok out) ↔
      (∀ e ∈ es, cursor ≤ e.range.start) ∧
        es.Pairwise fun a b => a.range.stop ≤ b.range.start := by
  induction es generalizing rest cursor with
  | nil => simp [applySorted]
  | cons e es ih =>
    have he : e.range.start ≤ e.range.stop := hr e (by simp)
    by_cases hlt : e.range.start < cursor
    · -- the first edit starts before the cursor: the sweep stops at once
      simp [applySorted, hlt]
    · rw [applySorted_cons_of_le (Nat.le_of_not_lt hlt)]
      -- the rest is swept from where the first edit stops
      have ih' := ih (dropBytes (dropBytes rest (e.range.start - cursor))
        (e.range.stop - e.range.start)) e.range.stop (fun x hx => hr x (by simp [hx]))
      constructor
      · rintro ⟨out, hout⟩
        cases hs : applySorted (dropBytes (dropBytes rest (e.range.start - cursor))
            (e.range.stop - e.range.start)) e.range.stop es with
        | error err => simp [hs, Except.map] at hout
        | ok out' =>
          obtain ⟨hafter, hpw⟩ := ih'.1 ⟨out', hs⟩
          refine ⟨?_, List.pairwise_cons.2 ⟨hafter, hpw⟩⟩
          intro x hx
          rcases List.mem_cons.1 hx with rfl | hx
          · omega
          · have := hafter x hx
            omega
      · rintro ⟨-, hpw⟩
        obtain ⟨hafter, hpw⟩ := List.pairwise_cons.1 hpw
        obtain ⟨out', hs⟩ := ih'.2 ⟨hafter, hpw⟩
        exact ⟨_, by rw [hs]; rfl⟩

/-- What the sweep writes. Started at the boundary after `pre` in the text `pre ++ rest`, over
edits that fit the text, start at or after the cursor and follow one another, the sweep writes
what comes after `pre` once the edits are spliced in back to front. -/
theorem applySorted_eq_foldr_spliceInto {cs : List Char} (es : List TextEdit)
    (hr : ∀ e ∈ es, e.range.start ≤ e.range.stop) (hfit : ∀ e ∈ es, Fits cs e)
    (hpw : es.Pairwise fun a b => a.range.stop ≤ b.range.start) :
    ∀ pre rest, pre ++ rest = cs → (∀ e ∈ es, byteSize pre ≤ e.range.start) →
      ∃ out, applySorted rest (byteSize pre) es = .ok out ∧
        pre ++ out = es.foldr TextEdit.spliceInto cs := by
  induction es with
  | nil => exact fun pre rest hcs _ => ⟨rest, rfl, by simpa using hcs⟩
  | cons e es ih =>
    intro pre rest hcs hafter
    have he := hr e (by simp)
    obtain ⟨-, hbs, hbt⟩ := hfit e (by simp)
    obtain ⟨hnext, hpw⟩ := List.pairwise_cons.1 hpw
    -- the edit's start and stop cut the rest of the text into `mid`, `del` and `rest₂`
    obtain ⟨mid, rest₁, rfl, hmid⟩ :=
      exists_cut_of_isCharBoundary (by rw [hcs]; exact hbs) (hafter e (by simp))
    have hcs₁ : pre ++ mid ++ rest₁ = cs := by simpa using hcs
    obtain ⟨del, rest₂, rfl, hdel⟩ :=
      exists_cut_of_isCharBoundary (by rw [hcs₁]; exact hbt) (by simpa [hmid] using he)
    have hcs₂ : pre ++ mid ++ del ++ rest₂ = cs := by simpa using hcs₁
    have hstop : byteSize (pre ++ mid ++ del) = e.range.stop := by rw [byteSize_append, hdel]
    obtain ⟨out, hout, heq⟩ := ih (fun x hx => hr x (by simp [hx]))
      (fun x hx => hfit x (by simp [hx])) hpw (pre ++ mid ++ del) rest₂ hcs₂
      (fun x hx => hstop ▸ hnext x hx)
    refine ⟨mid ++ e.text.toList ++ out, ?_, ?_⟩
    · -- the sweep copies `mid`, writes the edit's text, skips `del` and goes on from the stop
      have h₁ : e.range.start - byteSize pre = byteSize mid := by omega
      have h₂ : e.range.stop - e.range.start = byteSize del := by
        simp only [byteSize_append] at hdel
        omega
      rw [applySorted_cons_of_le (hafter e (by simp)), h₁, h₂, dropBytes_append_byteSize,
        dropBytes_append_byteSize, takeBytes_append_byteSize, ← hstop, hout]
      rfl
    · -- splicing the edit into the text the later edits left keeps `pre ++ mid` before it
      have htake : takeBytes (pre ++ mid ++ (del ++ out)) e.range.start = pre ++ mid := by
        rw [← hmid, ← byteSize_append, takeBytes_append_byteSize]
      have hdrop : dropBytes (pre ++ mid ++ del ++ out) e.range.stop = out := by
        rw [← hstop, dropBytes_append_byteSize]
      rw [List.foldr_cons, ← heq, TextEdit.spliceInto]
      rw [show pre ++ mid ++ del ++ out = pre ++ mid ++ (del ++ out) by simp] at hdrop ⊢
      rw [htake, hdrop]
      simp

/-! ### Sorting by range -/

theorem rangeLe_trans (a b c : TextEdit) (hab : a.range.le b.range) (hbc : b.range.le c.range) :
    a.range.le c.range := by
  simp only [Range.le, Bool.or_eq_true, Bool.and_eq_true, decide_eq_true_eq, beq_iff_eq] at *
  omega

theorem rangeLe_total (a b : TextEdit) : (a.range.le b.range || b.range.le a.range) = true := by
  simp only [Range.le, Bool.or_eq_true, Bool.and_eq_true, decide_eq_true_eq, beq_iff_eq]
  omega

/-- Of two edits in order of range that do not conflict, the first stops before the second
starts: the only other way not to conflict, the second stopping before the first starts, makes
both empty at one offset. -/
theorem stop_le_start_of_rangeLe {a b : TextEdit} (hb : b.range.start ≤ b.range.stop)
    (hle : a.range.le b.range) (hc : ¬ Conflict a b) :
    a.range.stop ≤ b.range.start := by
  simp only [Conflict, Range.le, Bool.or_eq_true, Bool.and_eq_true, decide_eq_true_eq,
    beq_iff_eq] at hle hc
  omega

theorem not_conflict_of_stop_le_start {a b : TextEdit} (h : a.range.stop ≤ b.range.start) :
    ¬ Conflict a b :=
  fun hc => hc.1 h

theorem conflict_symm {a b : TextEdit} (h : Conflict a b) : Conflict b a := ⟨h.2, h.1⟩

/-- Sorted by range, the edits follow one another exactly when no two of them conflict. -/
theorem pairwise_mergeSort_iff_not_conflict (edits : List TextEdit)
    (hr : ∀ e ∈ edits, e.range.start ≤ e.range.stop) :
    (edits.mergeSort fun a b => a.range.le b.range).Pairwise
        (fun a b => a.range.stop ≤ b.range.start) ↔
      edits.Pairwise fun a b => ¬ Conflict a b := by
  have hperm := List.mergeSort_perm edits fun a b => a.range.le b.range
  have hsymm : ∀ {a b : TextEdit}, ¬ Conflict a b → ¬ Conflict b a :=
    fun h hc => h (conflict_symm hc)
  constructor
  · intro h
    exact (h.imp not_conflict_of_stop_le_start).perm hperm hsymm
  · intro h
    have hsorted := List.pairwise_mergeSort rangeLe_trans rangeLe_total edits
    refine (hsorted.and (h.perm hperm.symm hsymm)).imp_of_mem ?_
    intro a b _ hb hab
    exact stop_le_start_of_rangeLe (hr b (hperm.mem_iff.1 hb)) hab.1 hab.2

/-- Sorting the edits by range keeps edits with one range in their order in the list, so it is
sorting them by range and then position. -/
theorem map_fst_mergeSort_editOrder (edits : List TextEdit) :
    (edits.zipIdx.mergeSort editOrder).map (·.1) =
      edits.mergeSort fun a b => a.range.le b.range := by
  have h : editOrder = List.zipIdxLE fun a b : TextEdit => a.range.le b.range := by
    funext a b
    rw [Bool.eq_iff_iff]
    simp only [editOrder, List.zipIdxLE, Range.le]
    split_ifs <;> simp_all <;> omega
  rw [h, List.mergeSort_zipIdx]

/-! ### Applying edits -/

/-- Applicable edits are applied, and give the text of splicing them in back to front. -/
theorem applyEdits_eq_of_applicable (source : String) (edits : List TextEdit)
    (hr : ∀ e ∈ edits, e.range.start ≤ e.range.stop) (h : Applicable source.toList edits) :
    applyEdits source edits = .ok (applyBackToFront source edits) := by
  obtain ⟨hfit, hpw⟩ := h
  have hperm := List.mergeSort_perm edits fun a b => a.range.le b.range
  have hfold : (edits.zipIdx.mergeSort editOrder).foldr (fun e cs => e.1.spliceInto cs)
      source.toList = (edits.mergeSort fun a b => a.range.le b.range).foldr TextEdit.spliceInto
      source.toList := by
    rw [← map_fst_mergeSort_editOrder, List.foldr_map]
  unfold applyEdits applyBackToFront
  rw [hfold]
  split
  · -- no edits: the text is kept
    rename_i hnil
    rw [List.isEmpty_iff.1 hnil]
    simp
  · dsimp only
    rw [(checkBounds_eq_none_iff _ _).2 hfit]
    obtain ⟨out, hout, heq⟩ := applySorted_eq_foldr_spliceInto _
      (fun e he => hr e (hperm.mem_iff.1 he)) (fun e he => hfit e (hperm.mem_iff.1 he))
      ((pairwise_mergeSort_iff_not_conflict edits hr).2 hpw) [] source.toList rfl (by simp)
    simp only [byteSize_nil, List.nil_append] at hout heq
    simp [hout, heq, Except.map]

/-- Edits that are applied are applicable: a failed check or a failed sweep is an error. -/
theorem applicable_of_applyEdits_eq_ok {source : String} {edits : List TextEdit} {out : String}
    (hr : ∀ e ∈ edits, e.range.start ≤ e.range.stop) (h : applyEdits source edits = .ok out) :
    Applicable source.toList edits := by
  have hperm := List.mergeSort_perm edits fun a b => a.range.le b.range
  unfold applyEdits at h
  split at h
  · rename_i hnil
    rw [List.isEmpty_iff.1 hnil]
    simp [Applicable]
  · dsimp only at h
    cases hcheck : checkBounds source.toList edits with
    | some err => simp [hcheck] at h
    | none =>
      simp only [hcheck] at h
      cases hs : applySorted source.toList 0 (edits.mergeSort fun a b => a.range.le b.range) with
      | error err => simp [hs, Except.map] at h
      | ok out' =>
        have hok := (applySorted_ok_iff _ _ _ (fun e he => hr e (hperm.mem_iff.1 he))).1
          ⟨out', hs⟩
        exact ⟨(checkBounds_eq_none_iff _ _).1 hcheck,
          (pairwise_mergeSort_iff_not_conflict edits hr).1 hok.2⟩

/-- The check names the first edit, in list order, that does not fit, before any overlap is
looked at. -/
theorem applyEdits_first_bounds_error {source : String} {pre post : List TextEdit} {e : TextEdit}
    (hpre : ∀ x ∈ pre, Fits source.toList x) (he : ¬ Fits source.toList e) :
    ∃ err, applyEdits source (pre ++ e :: post) = .error err ∧ BoundsError source.toList e err := by
  obtain ⟨err, hcheck, hbe⟩ := checkBounds_first post hpre he
  exact ⟨err, by simp [applyEdits, hcheck], hbe⟩

/-- **Applying edits.** For edits whose ranges start no later than they stop: the edits are
applied exactly when each fits the text and no two conflict; then the text is the one obtained by
splicing them in one at a time, back to front, in decreasing order of start, stop and position in
the list (so insertions at one offset come out in list order); and an edit that does not fit is
reported for the first such edit in list order, before any overlap. -/
theorem applyEdits_correct (source : String) (edits : List TextEdit)
    (hr : ∀ e ∈ edits, e.range.start ≤ e.range.stop) :
    ((∃ out, applyEdits source edits = .ok out) ↔ Applicable source.toList edits) ∧
    (Applicable source.toList edits →
      applyEdits source edits = .ok (applyBackToFront source edits)) ∧
    (∀ pre e post, edits = pre ++ e :: post → (∀ x ∈ pre, Fits source.toList x) →
      ¬ Fits source.toList e →
        ∃ err, applyEdits source edits = .error err ∧ BoundsError source.toList e err) := by
  refine ⟨⟨fun ⟨_, h⟩ => applicable_of_applyEdits_eq_ok hr h,
    fun h => ⟨_, applyEdits_eq_of_applicable source edits hr h⟩⟩,
    applyEdits_eq_of_applicable source edits hr, ?_⟩
  rintro pre e post rfl hpre he
  exact applyEdits_first_bounds_error hpre he

/-- An insertion at the start of a replacement does not conflict with it. -/
theorem applyEdits_correct_touching :
    (∀ e ∈ [(⟨⟨"A.java"⟩, ⟨2, 4⟩, "ZZ"⟩ : TextEdit), ⟨⟨"A.java"⟩, ⟨2, 2⟩, "<"⟩],
      e.range.start ≤ e.range.stop) ∧
    ((∃ out, applyEdits "abcdef" [⟨⟨"A.java"⟩, ⟨2, 4⟩, "ZZ"⟩, ⟨⟨"A.java"⟩, ⟨2, 2⟩, "<"⟩] =
        .ok out) ↔
      Applicable "abcdef".toList [⟨⟨"A.java"⟩, ⟨2, 4⟩, "ZZ"⟩, ⟨⟨"A.java"⟩, ⟨2, 2⟩, "<"⟩]) ∧
    (Applicable "abcdef".toList [⟨⟨"A.java"⟩, ⟨2, 4⟩, "ZZ"⟩, ⟨⟨"A.java"⟩, ⟨2, 2⟩, "<"⟩] →
      applyEdits "abcdef" [⟨⟨"A.java"⟩, ⟨2, 4⟩, "ZZ"⟩, ⟨⟨"A.java"⟩, ⟨2, 2⟩, "<"⟩] =
        .ok (applyBackToFront "abcdef"
          [⟨⟨"A.java"⟩, ⟨2, 4⟩, "ZZ"⟩, ⟨⟨"A.java"⟩, ⟨2, 2⟩, "<"⟩])) ∧
    (∀ pre e post, [(⟨⟨"A.java"⟩, ⟨2, 4⟩, "ZZ"⟩ : TextEdit), ⟨⟨"A.java"⟩, ⟨2, 2⟩, "<"⟩] =
        pre ++ e :: post → (∀ x ∈ pre, Fits "abcdef".toList x) → ¬ Fits "abcdef".toList e →
      ∃ err, applyEdits "abcdef" [⟨⟨"A.java"⟩, ⟨2, 4⟩, "ZZ"⟩, ⟨⟨"A.java"⟩, ⟨2, 2⟩, "<"⟩] =
        .error err ∧ BoundsError "abcdef".toList e err) :=
  ⟨by decide, applyEdits_correct _ _ (by decide)⟩

end QuickFix
