import QuickFix.Proofs.RenderedTrees
import QuickFix.Proofs.IndependentQualifiers
import QuickFix.Proofs.SessionRendering

/-!
# Removing elements of argument and parameter lists

Removing an argument or a parameter also removes a separator next to it: the one after it, or for
the last element of its list the one before it (`EditSession.removalRange`). Each removal reads
only its own place in the list, so removals of several elements made in one session meet: two
neighbours share no separator, but the last element and the one before it both take the
separator between them.

On a rendered unit the elements of a list are separated by exactly `", "`
(`Outline.SourceUnit.listsSeparated_of_render`), so the removals are deletions of whole pieces
of the list. Swept from the front, they keep the text before the list, the elements that stay
with one separator between each two, and the text after the list
(`applySorted_deletions_of_last_kept`).

Main statement: `finish_removing_list_elements`. Removing in one session some elements of an
argument or parameter list of a rendered unit gives the unit with the list written anew from the
elements that stay, unless both of the last two elements are removed; then, unless both are
empty, the change fails with colliding edits (`finish_fails_removing_last_two_arguments`).
-/

namespace QuickFix

open Text

/-! ### Cutting text at boundaries -/

/-- Two boundaries cut a text into the part before the first, the part between and the rest. -/
theorem IsCharBoundary.cut {cs : List Char} {a b : Nat} (ha : IsCharBoundary cs a)
    (hb : IsCharBoundary cs b) (hab : a ≤ b) :
    ∃ p m q, cs = p ++ m ++ q ∧ byteSize p = a ∧ byteSize p + byteSize m = b := by
  obtain ⟨p, r, rfl, rfl⟩ := ha
  obtain ⟨m, q, rfl, hm⟩ := exists_cut_of_isCharBoundary hb hab
  exact ⟨p, m, q, by simp, rfl, hm⟩

namespace Text

section Cut

variable (p m q : List Char)

theorem dropBytes_cut_left : dropBytes (p ++ m ++ q) (byteSize p) = m ++ q := by
  rw [List.append_assoc, dropBytes_append_byteSize]

theorem dropBytes_cut_right : dropBytes (p ++ m ++ q) (byteSize p + byteSize m) = q := by
  rw [← byteSize_append, dropBytes_append_byteSize]

theorem sliceBytes_cut : sliceBytes (p ++ m ++ q) (byteSize p) (byteSize p + byteSize m) = m := by
  rw [sliceBytes, dropBytes_cut_left, Nat.add_sub_cancel_left, takeBytes_append_byteSize]

end Cut

variable {cs : List Char} {a b c : Nat}

/-- The text after a boundary is the slice up to a later boundary and the text after that. -/
theorem dropBytes_eq_sliceBytes_append (ha : IsCharBoundary cs a) (hb : IsCharBoundary cs b)
    (hab : a ≤ b) : dropBytes cs a = sliceBytes cs a b ++ dropBytes cs b := by
  obtain ⟨p, m, q, rfl, rfl, rfl⟩ := ha.cut hb hab
  rw [dropBytes_cut_left, sliceBytes_cut, dropBytes_cut_right]

theorem dropBytes_dropBytes (ha : IsCharBoundary cs a) (hb : IsCharBoundary cs b) (hab : a ≤ b) :
    dropBytes (dropBytes cs a) (b - a) = dropBytes cs b := by
  obtain ⟨p, m, q, rfl, rfl, rfl⟩ := ha.cut hb hab
  rw [dropBytes_cut_left, dropBytes_cut_right, Nat.add_sub_cancel_left, dropBytes_append_byteSize]

theorem sliceBytes_append_sliceBytes (ha : IsCharBoundary cs a) (hb : IsCharBoundary cs b)
    (hc : IsCharBoundary cs c) (hab : a ≤ b) (hbc : b ≤ c) :
    sliceBytes cs a b ++ sliceBytes cs b c = sliceBytes cs a c := by
  have h := dropBytes_eq_sliceBytes_append ha hc (hab.trans hbc)
  rw [dropBytes_eq_sliceBytes_append ha hb hab, dropBytes_eq_sliceBytes_append hb hc hbc,
    ← List.append_assoc] at h
  exact List.append_cancel_right h

theorem sliceBytes_byteSize (ha : IsCharBoundary cs a) :
    sliceBytes cs a (byteSize cs) = dropBytes cs a := by
  have h := dropBytes_eq_sliceBytes_append ha (isCharBoundary_byteSize cs)
    (le_byteSize_of_isCharBoundary ha)
  rwa [dropBytes_byteSize, List.append_nil, eq_comm] at h

theorem sliceBytes_self (cs : List Char) (a : Nat) : sliceBytes cs a a = [] := by
  rw [sliceBytes, Nat.sub_self, takeBytes_zero]

theorem slice_append_slice {s : String} {a b c : Nat} (ha : IsCharBoundary s.toList a)
    (hb : IsCharBoundary s.toList b) (hc : IsCharBoundary s.toList c) (hab : a ≤ b) (hbc : b ≤ c) :
    slice s a b ++ slice s b c = slice s a c := by
  rw [slice, slice, slice, ← String.ofList_append, sliceBytes_append_sliceBytes ha hb hc hab hbc]

theorem slice_self (s : String) (a : Nat) : slice s a a = "" := by
  rw [slice, sliceBytes_self]

end Text

/-! ### The sweep from a boundary -/

section Sweep

variable {cs : List Char} {c m : Nat} {e : TextEdit} {es : List TextEdit} {out : List Char}

/-- From a boundary, the sweep writes the text up to an edit that fits, the edit's text, and then
whatever it writes from the edit's stop. -/
theorem applySorted_dropBytes_cons (hc : IsCharBoundary cs c) (hfit : Fits cs e)
    (hce : c ≤ e.range.start) (he : e.range.start ≤ e.range.stop)
    (hout : applySorted (dropBytes cs e.range.stop) e.range.stop es = .ok out) :
    applySorted (dropBytes cs c) c (e :: es) =
      .ok (sliceBytes cs c e.range.start ++ e.text.toList ++ out) := by
  rw [applySorted_cons_of_le hce, dropBytes_dropBytes hc hfit.2.1 hce,
    dropBytes_dropBytes hfit.2.1 hfit.2.2 he, hout]
  rfl

/-- The sweep copies the text up to the first edit: started earlier, it writes the text between
the two starting points first. -/
theorem applySorted_dropBytes_of_le (hc : IsCharBoundary cs c) (hm : IsCharBoundary cs m)
    (hcm : c ≤ m) (hfit : ∀ e ∈ es, Fits cs e) (hr : ∀ e ∈ es, e.range.start ≤ e.range.stop)
    (hafter : ∀ e ∈ es, m ≤ e.range.start) (hout : applySorted (dropBytes cs m) m es = .ok out) :
    applySorted (dropBytes cs c) c es = .ok (sliceBytes cs c m ++ out) := by
  cases es with
  | nil =>
    cases hout
    rw [applySorted, dropBytes_eq_sliceBytes_append hc hm hcm]
  | cons e es =>
    have he := hafter e List.mem_cons_self
    -- the sweep from `m` reaches the first edit as the sweep from `c` does
    cases hrest : applySorted (dropBytes cs e.range.stop) e.range.stop es with
    | error err =>
      rw [applySorted_cons_of_le he, dropBytes_dropBytes hm (hfit e List.mem_cons_self).2.1 he,
        dropBytes_dropBytes (hfit e List.mem_cons_self).2.1 (hfit e List.mem_cons_self).2.2
          (hr e List.mem_cons_self), hrest] at hout
      cases hout
    | ok out' =>
      rw [applySorted_dropBytes_cons hm (hfit e List.mem_cons_self) he (hr e List.mem_cons_self)
        hrest] at hout
      cases hout
      rw [applySorted_dropBytes_cons hc (hfit e List.mem_cons_self) (hcm.trans he)
        (hr e List.mem_cons_self) hrest, ← sliceBytes_append_sliceBytes hc hm
        (hfit e List.mem_cons_self).2.1 hcm he]
      simp

end Sweep

/-- Edits that the sweep from the start writes are applicable, and splicing them in back to
front gives what the sweep writes. -/
theorem applyBackToFront_of_applySorted {source : String} {es : List TextEdit} {out : List Char}
    (hr : ∀ e ∈ es, e.range.start ≤ e.range.stop) (hfit : ∀ e ∈ es, Fits source.toList e)
    (hout : applySorted source.toList 0 es = .ok out) :
    Applicable source.toList es ∧ applyBackToFront source es = String.ofList out := by
  have hpw := ((applySorted_ok_iff _ _ es hr).1 ⟨out, hout⟩).2
  have happ : Applicable source.toList es := ⟨hfit, hpw.imp not_conflict_of_stop_le_start⟩
  -- edits that follow one another are already sorted by range
  have hsorted : es.Pairwise fun a b => a.range.le b.range = true := by
    refine hpw.imp_of_mem fun ha hb hab => ?_
    have := hr _ ha
    have := hr _ hb
    simp only [Range.le, Bool.or_eq_true, Bool.and_eq_true, decide_eq_true_eq, beq_iff_eq]
    omega
  have hsweep := applyEdits_eq_map_applySorted hfit
  rw [List.mergeSort_of_pairwise hsorted, hout, applyEdits_eq_of_applicable source es hr happ]
    at hsweep
  exact ⟨happ, by simpa [Except.map] using hsweep⟩

/-! ### Lists of children -/

namespace SyntaxTree

/-- The elements of every argument and parameter list stand apart by exactly `", "`. -/
def ListsSeparated (t : SyntaxTree) : Prop :=
  ∀ p r, r.IsListed → (t.childrenWithRole p r).IsChain fun a c =>
    slice t.text (t.range a).stop (t.range c).start = ", "

/-- The span of a node's children with a role: from the start of the first to the stop of the
last. An empty list spans nothing, at offset zero. -/
def listRange (t : SyntaxTree) (o : NodeId) (r : Role) : Range :=
  match t.childrenWithRole o r with
  | [] => ⟨0, 0⟩
  | a :: rest => ⟨(t.range a).start, (t.range (rest.getLastD a)).stop⟩

variable {t : SyntaxTree} {o n : NodeId} {r : Role}

theorem parent_of_mem_childrenWithRole (h : t.WellFormed) (hn : n ∈ t.childrenWithRole o r) :
    t.parent n = some o ∧ t.role n = r := by
  rw [childrenWithRole, List.mem_filter, beq_iff_eq] at hn
  exact ⟨((h.mem_children o n).1 hn.1).2, hn.2⟩

theorem pairwise_childrenWithRole (h : t.WellFormed) (o : NodeId) (r : Role) :
    (t.childrenWithRole o r).Pairwise fun a b => (t.range a).stop < (t.range b).start :=
  (h.siblings_apart o).filter _

theorem nodup_childrenWithRole (h : t.WellFormed) (o : NodeId) (r : Role) :
    (t.childrenWithRole o r).Nodup :=
  (pairwise_childrenWithRole h o r).imp fun {a b} hab heq => by
    subst heq
    have := h.start_le_stop a
    omega

theorem listRange_of_cons {t : SyntaxTree} {o a z : NodeId} {r : Role}
    {rest : List NodeId} (hL : t.childrenWithRole o r = a :: rest)
    (hz : (a :: rest).getLast? = some z) :
    t.listRange o r = ⟨(t.range a).start, (t.range z).stop⟩ := by
  rw [List.getLast?_cons, Option.some_inj] at hz
  rw [listRange, hL]
  simp [List.getLastD_eq_getLast?, hz]

end SyntaxTree

end QuickFix

namespace QuickFix.Outline

open TreeBuilder

/-- A rendered unit is a well-formed tree whose argument and parameter lists have their elements
separated by exactly `", "`. -/
theorem SourceUnit.listsSeparated_of_render {ctx : RenderContext} {u : SourceUnit} {t : SyntaxTree}
    {declared : List TypeId} (hu : u.render ctx = .ok (t, declared)) :
    t.WellFormed ∧ t.ListsSeparated := by
  obtain ⟨st, hl, hs, hrender⟩ := u.render_eq_of_final ctx
  rw [hrender] at hu
  -- the tree is the builder's nodes over the text written
  simp only [Except.ok.injEq, Prod.mk.injEq] at hu
  obtain ⟨rfl, -⟩ := hu
  exact ⟨hl.toShape.wellFormed hs _, fun p r hr => (hl.lists p r hr).imp fun _ _ hac => hac.2⟩

end QuickFix.Outline

namespace QuickFix

open Text

/-! ### What a removal takes -/

theorem List.idxOf?_append_cons {α : Type} [BEq α] [LawfulBEq α] {pre post : List α} {a : α}
    (h : a ∉ pre) : (pre ++ a :: post).idxOf? a = some pre.length := by
  induction pre with
  | nil => simp [List.idxOf?_cons]
  | cons x pre ih =>
    have hxa : (x == a) = false := beq_false_of_ne fun hx => h (hx ▸ List.mem_cons_self)
    rw [List.cons_append, List.idxOf?_cons, hxa, ih (fun ha => h (List.mem_cons_of_mem x ha))]
    rfl

namespace EditSession

variable {s : EditSession} {o n : NodeId} {r : Role}

/-- The range removed with an argument or parameter, read off its place in the list. -/
theorem removalRange_of_listed (h : s.tree.WellFormed) (hr : r.IsListed) {pre post : List NodeId}
    (hL : s.tree.childrenWithRole o r = pre ++ n :: post) :
    s.removalRange n =
      match post.head? with
      | some next => ⟨(s.tree.range n).start, (s.tree.range next).start⟩
      | none =>
        match pre.getLast? with
        | some prev => ⟨(s.tree.range prev).stop, (s.tree.range n).stop⟩
        | none => s.tree.range n := by
  have hn : n ∈ s.tree.childrenWithRole o r := hL ▸ List.mem_append_right pre List.mem_cons_self
  obtain ⟨hp, hrole⟩ := SyntaxTree.parent_of_mem_childrenWithRole h hn
  have hnd := SyntaxTree.nodup_childrenWithRole h o r
  rw [hL, List.nodup_append] at hnd
  have hidx : (pre ++ n :: post).idxOf? n = some pre.length :=
    List.idxOf?_append_cons fun hpre => hnd.2.2 n hpre n List.mem_cons_self rfl
  have hrole' : (r == .expression) = false ∧ (r == .argument || r == .parameter) = true := by
    rcases hr with rfl | rfl <;> decide
  unfold removalRange
  simp only [hp, hrole, hrole'.1, hrole'.2, Bool.false_and, Bool.false_eq_true, if_false, if_true,
    hL, hidx, Option.getD_some]
  cases post with
  | cons next post =>
    -- the next element is the one after `n`
    have hnext : (pre ++ n :: next :: post)[pre.length + 1]? = some next := by
      simp
    rw [hnext]
    rfl
  | nil =>
    have hnone : (pre ++ [n])[pre.length + 1]? = none := by simp
    rw [hnone]
    rcases List.eq_nil_or_concat pre with rfl | ⟨pre', prev, rfl⟩
    · simp
    · -- the element before `n` is the last of `pre`
      simp

/-- The edit that removes a node. -/
def removalEdit (s : EditSession) (n : NodeId) : TextEdit := ⟨s.tree.file, s.removalRange n, ""⟩

section Listed

variable (h : s.tree.WellFormed) (hr : r.IsListed)
include h hr

/-- The removal edit of an element followed by another in its list runs up to the start of that
one. -/
theorem removalEdit_of_next {x y : NodeId} (hxy : [x, y] <:+: s.tree.childrenWithRole o r) :
    s.removalEdit x = ⟨s.tree.file, ⟨(s.tree.range x).start, (s.tree.range y).start⟩, ""⟩ := by
  obtain ⟨pre, post, hL⟩ := hxy
  have hL' : s.tree.childrenWithRole o r = pre ++ x :: y :: post := by simpa using hL.symm
  rw [removalEdit, removalRange_of_listed h hr hL']
  rfl

/-- The removal edit of the last element of a list with one before it starts at the stop of that
one. -/
theorem removalEdit_of_last {pre : List NodeId} {y z : NodeId}
    (hL : s.tree.childrenWithRole o r = pre ++ [y, z]) :
    s.removalEdit z = ⟨s.tree.file, ⟨(s.tree.range y).stop, (s.tree.range z).stop⟩, ""⟩ := by
  have hL' : s.tree.childrenWithRole o r = (pre ++ [y]) ++ z :: [] := by simpa using hL
  rw [removalEdit, removalRange_of_listed h hr hL']
  simp

/-- The removal edit of the only element of a list is its range. -/
theorem removalEdit_of_single (hL : s.tree.childrenWithRole o r = [n]) :
    s.removalEdit n = ⟨s.tree.file, s.tree.range n, ""⟩ := by
  have hL' : s.tree.childrenWithRole o r = [] ++ n :: [] := hL
  rw [removalEdit, removalRange_of_listed h hr hL']
  rfl

/-- A removal edit of an element of a list fits the text and does not run backwards; in a list
of two elements or more it removes something. -/
theorem removalEdit_fits (hn : n ∈ s.tree.childrenWithRole o r) :
    Fits s.tree.text.toList (s.removalEdit n) ∧
      (s.removalEdit n).range.start ≤ (s.removalEdit n).range.stop ∧
      (2 ≤ (s.tree.childrenWithRole o r).length →
        (s.removalEdit n).range.start < (s.removalEdit n).range.stop) := by
  obtain ⟨pre, post, hL⟩ := List.append_of_mem hn
  have hpw := SyntaxTree.pairwise_childrenWithRole h o r
  rw [hL, List.pairwise_append] at hpw
  have hn' := h.start_le_stop n
  cases post with
  | cons next post =>
    have hnext : (s.tree.range n).stop < (s.tree.range next).start :=
      (List.pairwise_cons.1 hpw.2.1).1 next List.mem_cons_self
    have hxy : [n, next] <:+: s.tree.childrenWithRole o r := ⟨pre, post, by rw [hL]; simp⟩
    rw [removalEdit_of_next h hr hxy]
    refine ⟨⟨(h.stop_le_size next).trans' (h.start_le_stop next), (h.boundary n).1,
      (h.boundary next).1⟩, by dsimp only; omega, fun _ => by dsimp only; omega⟩
  | nil =>
    rcases List.eq_nil_or_concat pre with rfl | ⟨pre', prev, rfl⟩
    · rw [removalEdit_of_single h hr (by simpa using hL)]
      exact ⟨⟨h.stop_le_size n, h.boundary n⟩, hn', fun hlen => by simp [hL] at hlen⟩
    · have hprev : (s.tree.range prev).stop < (s.tree.range n).start :=
        hpw.2.2 prev (by simp) n List.mem_cons_self
      have hL' : s.tree.childrenWithRole o r = pre' ++ [prev, n] := by simpa using hL
      rw [removalEdit_of_last h hr hL']
      exact ⟨⟨h.stop_le_size n, (h.boundary prev).2, (h.boundary n).2⟩, by dsimp only; omega,
        fun _ => by dsimp only; omega⟩

end Listed

end EditSession

/-! ### Deleting elements of a list -/

section Deleting

variable {t : SyntaxTree} (h : t.WellFormed) {ns : List NodeId} {E : NodeId → TextEdit}
  {D : List TextEdit} {z : NodeId} {out : List Char}

include h in
/-- **Deleting elements of a list whose last element stays.** Each deleted element goes with
the separator after it. Swept from a boundary `c` before the list, the deletions, followed by
edits after the list, write the text from `c` to the list, the elements that stay joined by
`", "`, and what the later edits write. -/
theorem applySorted_deletions_of_last_kept (hz : z ∉ ns)
    (hD : ∀ e ∈ D, Fits t.text.toList e ∧ e.range.start ≤ e.range.stop ∧
      (t.range z).stop ≤ e.range.start)
    (hout : applySorted (dropBytes t.text.toList (t.range z).stop) (t.range z).stop D = .ok out) :
    ∀ (rest : List NodeId) (a : NodeId) (c : Nat),
      (a :: rest).IsChain (fun x y => slice t.text (t.range x).stop (t.range y).start = ", ") →
      (∀ x y, [x, y] <:+: a :: rest → x ∈ ns →
        E x = ⟨t.file, ⟨(t.range x).start, (t.range y).start⟩, ""⟩) →
      (a :: rest).getLast? = some z → IsCharBoundary t.text.toList c → c ≤ (t.range a).start →
      applySorted (dropBytes t.text.toList c) c (((a :: rest).filter (· ∈ ns)).map E ++ D) =
        .ok ((slice t.text c (t.range a).start ++
          String.intercalate ", " (((a :: rest).filter (· ∉ ns)).map t.source)).toList ++ out) := by
  intro rest
  induction rest with
  | nil =>
    intro a c _ _ hlast hc hca
    obtain rfl : a = z := by simpa using hlast
    have hab := h.boundary a
    have hle := h.start_le_stop a
    have hdel : [a].filter (· ∈ ns) = [] := List.filter_cons_of_neg (by simpa using hz)
    have hkeep : [a].filter (· ∉ ns) = [a] := List.filter_cons_of_pos (by simpa using hz)
    rw [hdel, hkeep, List.map_nil, List.nil_append, applySorted_dropBytes_of_le hc hab.2
      (hca.trans hle) (fun e he => (hD e he).1) (fun e he => (hD e he).2.1)
      (fun e he => (hD e he).2.2) hout]
    rw [List.map_singleton, String.intercalate_singleton, SyntaxTree.source,
      slice_append_slice hc hab.1 hab.2 hca hle]
    simp [slice]
  | cons b rest ih =>
    intro a c hchain hE hlast hc hca
    rw [List.isChain_cons_cons] at hchain
    have hab := h.boundary a
    have hbb := h.boundary b
    have hle := h.start_le_stop a
    have hsep : (t.range a).stop ≤ (t.range b).start := le_of_slice_eq hchain.1 (by decide)
    have hE' : ∀ x y, [x, y] <:+: b :: rest → x ∈ ns →
        E x = ⟨t.file, ⟨(t.range x).start, (t.range y).start⟩, ""⟩ :=
      fun x y hxy => hE x y (hxy.trans (List.suffix_cons a _).isInfix)
    have hlast' : (b :: rest).getLast? = some z := by simpa using hlast
    by_cases ha : a ∈ ns
    · -- `a` goes with the separator after it: the sweep skips to the start of `b`
      have hEa := hE a b ⟨[], rest, rfl⟩ ha
      have hfit : Fits t.text.toList (E a) := by
        rw [hEa]
        exact ⟨(h.stop_le_size b).trans' (h.start_le_stop b), hab.1, hbb.1⟩
      have hdel : (a :: b :: rest).filter (· ∈ ns) = a :: (b :: rest).filter (· ∈ ns) :=
        List.filter_cons_of_pos (by simpa using ha)
      have hkeep : (a :: b :: rest).filter (· ∉ ns) = (b :: rest).filter (· ∉ ns) :=
        List.filter_cons_of_neg (by simpa using ha)
      rw [hdel, hkeep, List.map_cons, List.cons_append,
        applySorted_dropBytes_cons hc hfit (by rw [hEa]; exact hca) (by rw [hEa]; dsimp only; omega)
          (by rw [hEa]; exact ih b (t.range b).start hchain.2 hE' hlast' hbb.1 le_rfl), hEa]
      simp [slice, sliceBytes_self]
    · -- `a` stays, and the separator after it too: another element stays after it
      have hkept : ((b :: rest).filter (· ∉ ns)) ≠ [] := by
        have hzk : z ∈ (b :: rest).filter (· ∉ ns) :=
          List.mem_filter.2 ⟨List.mem_of_getLast? hlast', by simpa using hz⟩
        exact List.ne_nil_of_mem hzk
      have hdel : (a :: b :: rest).filter (· ∈ ns) = (b :: rest).filter (· ∈ ns) :=
        List.filter_cons_of_neg (by simpa using ha)
      have hkeep : (a :: b :: rest).filter (· ∉ ns) = a :: (b :: rest).filter (· ∉ ns) :=
        List.filter_cons_of_pos (by simpa using ha)
      rw [hdel, hkeep, ih b c hchain.2 hE' hlast' hc (hca.trans (hle.trans hsep)), List.map_cons,
        String.intercalate_cons_of_ne_nil (by simpa using hkept),
        ← slice_append_slice hc hab.2 hbb.1 (hca.trans hle) hsep,
        ← slice_append_slice hc hab.1 hab.2 hca hle, hchain.1]
      simp [SyntaxTree.source, String.append_assoc]

end Deleting

namespace EditSession

variable {s : EditSession} {o : NodeId} {r : Role} {ns : List NodeId}

/-- **The text swept after removals from a list.** In a well-formed unit whose lists are
separated by `", "`, unless both of the last two elements go, the removal edits of the elements
of `ns`, taken in the order of the list, write the text before the list, the elements that stay
joined by `", "`, and the text after the list. -/
theorem applySorted_listRemovals (h : s.tree.WellFormed) (hsep : s.tree.ListsSeparated)
    (hr : r.IsListed) (hlast : ¬ ∃ pre y z, s.tree.childrenWithRole o r = pre ++ [y, z] ∧
      y ∈ ns ∧ z ∈ ns)
    {a z : NodeId} {rest : List NodeId} (hL : s.tree.childrenWithRole o r = a :: rest)
    (hz : (a :: rest).getLast? = some z) :
    applySorted s.tree.text.toList 0
        (((s.tree.childrenWithRole o r).filter (· ∈ ns)).map s.removalEdit) =
      .ok ((slice s.tree.text 0 (s.tree.range a).start ++ String.intercalate ", "
        (((s.tree.childrenWithRole o r).filter (· ∉ ns)).map s.tree.source)).toList ++
          dropBytes s.tree.text.toList (s.tree.range z).stop) := by
  have hc0 : IsCharBoundary s.tree.text.toList 0 := ⟨[], _, rfl, rfl⟩
  have hchain := hsep o r hr
  have hE : ∀ x y, [x, y] <:+: a :: rest → x ∈ ns →
      s.removalEdit x = ⟨s.tree.file, ⟨(s.tree.range x).start, (s.tree.range y).start⟩, ""⟩ :=
    fun x y hxy _ => removalEdit_of_next h hr (hL ▸ hxy)
  have hend : (s.tree.range z).stop ≤ Text.byteSize s.tree.text.toList := h.stop_le_size z
  have hdone : applySorted (dropBytes s.tree.text.toList (s.tree.range z).stop)
      (s.tree.range z).stop [] = .ok (dropBytes s.tree.text.toList (s.tree.range z).stop) := rfl
  suffices key : applySorted (dropBytes s.tree.text.toList 0) 0
      (((s.tree.childrenWithRole o r).filter (· ∈ ns)).map s.removalEdit) =
        .ok ((slice s.tree.text 0 (s.tree.range a).start ++ String.intercalate ", "
          (((s.tree.childrenWithRole o r).filter (· ∉ ns)).map s.tree.source)).toList ++
            dropBytes s.tree.text.toList (s.tree.range z).stop) by
    rwa [dropBytes_zero] at key
  rw [hL] at hchain ⊢
  obtain ⟨ℓ, hℓ⟩ : ∃ ℓ, a :: rest = ℓ ++ [z] := by
    obtain ⟨ℓ, hℓ⟩ := List.getLast?_eq_some_iff.1 hz
    exact ⟨ℓ, hℓ⟩
  by_cases hzn : z ∈ ns
  · rcases List.eq_nil_or_concat ℓ with rfl | ⟨ℓ', y, rfl⟩
    · -- the only element goes, with nothing around it
      obtain ⟨rfl, rfl⟩ : z = a ∧ rest = [] := by simpa [eq_comm] using hℓ
      have hEz := removalEdit_of_single h hr hL
      have hfz := (removalEdit_fits h hr (hL ▸ List.mem_singleton_self z)).1
      have hdel : [z].filter (· ∈ ns) = [z] := by simp [hzn]
      have hkeep : [z].filter (· ∉ ns) = [] := by simp [hzn]
      rw [hdel, hkeep, List.map_singleton, List.map_nil,
        applySorted_dropBytes_cons hc0 hfz (by rw [hEz]; exact Nat.zero_le _)
          (by rw [hEz]; exact h.start_le_stop z) (by rw [hEz]; exact hdone), hEz]
      simp [slice]
    · -- the last element goes with the separator before it; the one before it stays
      have hL' : s.tree.childrenWithRole o r = ℓ' ++ [y, z] := by rw [hL, hℓ]; simp
      have hy : y ∉ ns := fun hy => hlast ⟨ℓ', y, z, hL', hy, hzn⟩
      have hEz := removalEdit_of_last h hr hL'
      obtain ⟨hfz, hlez, -⟩ := removalEdit_fits h hr (hL' ▸ (by simp : z ∈ ℓ' ++ [y, z]))
      obtain ⟨a', rest', hℓ'⟩ := List.exists_cons_of_ne_nil (by simp : ℓ' ++ [y] ≠ [])
      obtain ⟨ha', rfl⟩ : a = a' ∧ rest = rest' ++ [z] := by simpa [hℓ'] using hℓ
      subst ha'
      have hout : applySorted (dropBytes s.tree.text.toList (s.tree.range y).stop)
          (s.tree.range y).stop [s.removalEdit z] =
            .ok (dropBytes s.tree.text.toList (s.tree.range z).stop) := by
        rw [applySorted_dropBytes_cons (h.boundary y).2 hfz (by rw [hEz]) hlez
          (by rw [hEz]; exact hdone), hEz]
        simp [sliceBytes_self]
      have hchain' : ((a :: rest') ++ [z]).IsChain fun x y =>
          slice s.tree.text (s.tree.range x).stop (s.tree.range y).start = ", " := hchain
      have hrun : applySorted (dropBytes s.tree.text.toList 0) 0
          (((a :: rest').filter (· ∈ ns)).map s.removalEdit ++ [s.removalEdit z]) =
            .ok ((slice s.tree.text 0 (s.tree.range a).start ++ String.intercalate ", "
              (((a :: rest').filter (· ∉ ns)).map s.tree.source)).toList ++
                dropBytes s.tree.text.toList (s.tree.range z).stop) :=
        applySorted_deletions_of_last_kept h hy
          (by simp only [List.mem_singleton]; rintro e rfl; exact ⟨hfz, hlez, by rw [hEz]⟩)
          hout rest' a 0 hchain'.left_of_append
          (fun x y' hxy => hE x y' (hxy.trans (List.prefix_append (a :: rest') [z]).isInfix))
          (by rw [← hℓ']; simp) hc0 (Nat.zero_le _)
      have hdel : (a :: (rest' ++ [z])).filter (· ∈ ns) = (a :: rest').filter (· ∈ ns) ++ [z] := by
        rw [← List.cons_append, List.filter_append]
        simp [hzn]
      have hkeep : (a :: (rest' ++ [z])).filter (· ∉ ns) = (a :: rest').filter (· ∉ ns) := by
        rw [← List.cons_append, List.filter_append]
        simp [hzn]
      rw [hdel, hkeep, List.map_append, List.map_singleton]
      exact hrun
  · -- the last element stays
    simpa using applySorted_deletions_of_last_kept h hzn (fun e he => by cases he) hdone rest a 0
      hchain hE hz hc0 (Nat.zero_le _)

/-! ### Sessions of removals -/

/-- The session after removals from a fresh session: each removal recorded in the unnamed group
that the first of them begins. -/
def withRemovals (s : EditSession) (ns : List NodeId) : EditSession :=
  { s with groups := [""], changes := ns.map fun n => (n, .remove, 0) }

/-- In a session whose only group is the unnamed one, removals of nodes of the unit not yet
changed are recorded one after another in that group. -/
theorem foldlM_remove_of_groups : ∀ (ns : List NodeId) (s : EditSession), s.groups = [""] →
    (∀ n ∈ ns, s.tree.contains n) → ns.Nodup → (∀ n ∈ ns, n ∉ s.changedNodes) →
    ns.foldlM (fun s n => s.remove n) s =
      .ok { s with changes := s.changes ++ ns.map fun n => (n, .remove, 0) }
  | [], s, _, _, _, _ => by
    simp only [List.foldlM_nil, List.map_nil, List.append_nil]
    rfl
  | n :: ns, s, hg, hc, hnd, hnew => by
    have hgroup : s.group = (s, 0) := by simp [group, hg]
    rw [List.foldlM_cons, remove, record_eq_ok_of_new (hc n List.mem_cons_self)
      (hnew n List.mem_cons_self), hgroup]
    obtain ⟨hn, hnd⟩ := List.nodup_cons.1 hnd
    -- the rest is removed from the session with `n` recorded
    have hrest := foldlM_remove_of_groups ns { s with changes := s.changes ++ [(n, .remove, 0)] }
      hg (fun m hm => hc m (List.mem_cons_of_mem n hm)) hnd fun m hm hmc => by
        simp only [changedNodes, List.map_append, List.mem_append, List.map_cons, List.map_nil,
          List.mem_singleton] at hmc
        rcases hmc with hmc | rfl
        · exact hnew m (List.mem_cons_of_mem n hm) hmc
        · exact hn hm
    simp only [bind, Except.bind, hrest, List.append_assoc, List.map_cons, List.singleton_append]

/-- Removing distinct nodes of the unit, from a session with nothing recorded, gives the session
with those removals. -/
theorem foldlM_remove (hch : s.changes = []) (hg : s.groups = []) (hc : ∀ n ∈ ns, s.tree.contains n)
    (hnd : ns.Nodup) (hne : ns ≠ []) :
    ns.foldlM (fun s n => s.remove n) s = .ok (s.withRemovals ns) := by
  obtain ⟨n, ns, rfl⟩ := List.exists_cons_of_ne_nil hne
  have hgroup : s.group = ({ s with groups := [""] }, 0) := by simp [group, hg]
  obtain ⟨hn, hnd⟩ := List.nodup_cons.1 hnd
  rw [List.foldlM_cons, remove, record_eq_ok_of_new (hc n List.mem_cons_self)
    (by simp [changedNodes, hch]), hgroup]
  have hrest := foldlM_remove_of_groups ns
    { s with groups := [""], changes := s.changes ++ [(n, .remove, 0)] } rfl
    (fun m hm => hc m (List.mem_cons_of_mem n hm)) hnd fun m hm hmc => by
      simp only [changedNodes, hch, List.nil_append, List.map_cons, List.map_nil,
        List.mem_singleton] at hmc
      exact hn (hmc ▸ hm)
  simp only [bind, Except.bind]
  rw [hrest]
  simp [withRemovals, hch]

section Removals

variable {o : NodeId} (h : s.tree.WellFormed) (hins : s.insertsBefore = [])
  (hkids : ∀ n ∈ ns, n ∈ s.tree.children o) (hnd : ns.Nodup)
include h hins hkids hnd

/-- **The walk after removals of children of one node.** With nothing hoisted, the walk collects
the removal edits of the nodes, all in the one group, in another order. -/
theorem collectNode_withRemovals :
    ∃ pending, (s.withRemovals ns).collectNode (s.withRemovals ns).fuel SyntaxTree.root =
        .ok pending ∧ (∀ p ∈ pending, p.group < (s.withRemovals ns).groupCount) ∧
      (pending.map (s.withRemovals ns).toEdit).Perm (ns.map s.removalEdit) := by
  have hchanged : (s.withRemovals ns).changedNodes = ns := by
    simp [changedNodes, withRemovals, Function.comp_def]
  have hmem : ∀ x c g, (x, c, g) ∈ (s.withRemovals ns).changes → x ∈ ns ∧ c = .remove ∧ g = 0 := by
    intro x c g hx
    simpa [withRemovals, eq_comm] using hx
  -- two children of one node are apart
  have hapart : (s.withRemovals ns).ChangesApart := by
    intro x hx y hy hxy
    rw [hchanged] at hx hy
    exact (h.eq_of_mem_subtree_children (hkids y hy) (hkids x hx) hxy (h.mem_subtree_self x)).symm
  have hplain : ∀ x c g, (s.withRemovals ns).changeOf? x = some (c, g) →
      (s.withRemovals ns).PlainChange c ∧ changeWeight c ≤ 3 := by
    intro x c g hx
    obtain ⟨-, rfl, -⟩ := hmem x c g (mem_changes_of_changeOf hx)
    exact ⟨trivial, Nat.zero_le 3⟩
  refine ⟨_, @collectNode_root_of_changesApart (s.withRemovals ns) h hins hapart hplain, ?_, ?_⟩
  · -- every removal is in the unnamed group
    intro p hp
    obtain ⟨m, -, hpm⟩ := List.mem_filterMap.1 hp
    obtain ⟨⟨c, g⟩, hcg, rfl⟩ := Option.map_eq_some_iff.1 hpm
    obtain ⟨-, -, rfl⟩ := hmem m c g (mem_changes_of_changeOf hcg)
    rw [plainEdit_group]
    simp [groupCount, withRemovals]
  · -- the walk reads the removals along the subtree of the root, which holds each node once
    have hkeys : ((s.withRemovals ns).changes.map (·.1)).Nodup := by
      simpa [withRemovals, Function.comp_def] using hnd
    have hsub : ∀ p ∈ (s.withRemovals ns).changes, p.1 ∈ s.tree.subtree SyntaxTree.root := by
      rintro ⟨x, c, g⟩ hp
      obtain ⟨hx, -, -⟩ := hmem x c g hp
      exact h.mem_subtree_root ((h.mem_children o x).1 (hkids x hx)).1
    have hperm := List.filterMap_lookup_perm (fun m (cg : NodeChange × Nat) =>
      (s.withRemovals ns).toEdit ((s.withRemovals ns).plainEdit m cg.1 cg.2))
      (h.nodup_subtree SyntaxTree.root) hkeys hsub
    rw [List.map_filterMap]
    simp only [Option.map_map, Function.comp_def] at hperm ⊢
    refine hperm.trans (List.Perm.of_eq ?_)
    simp only [withRemovals, List.map_map]
    rfl

variable (hraw : s.rawInserts = []) (himp : s.imports.added = []) (name : String)
include hraw himp

/-- **Finishing removals that apply cleanly.** When the removal edits are, in some order, edits
that fit the text, do not conflict and have different ranges, `finish` succeeds, and the change
writes all of them. -/
theorem finish_withRemovals {es : List TextEdit} (hperm : (ns.map s.removalEdit).Perm es)
    (happ : Applicable s.tree.text.toList es) (hd : es.Pairwise fun a b => a.range ≠ b.range)
    (hr : ∀ e ∈ es, e.range.start ≤ e.range.stop) :
    ∃ c, (s.withRemovals ns).finish name = .ok c ∧
      c.apply s.tree.text = .ok (applyBackToFront s.tree.text es) := by
  obtain ⟨pending, hp, hg, hpend⟩ := collectNode_withRemovals h hins hkids hnd
  obtain ⟨c, hfin, -, happly⟩ :=
    finish_eq_ok_of_perm (s.withRemovals ns) name hraw himp hp hg (hpend.trans hperm) happ hd hr
  exact ⟨c, hfin, happly⟩

/-- Removals two of whose edits differ and conflict cannot be finished: the edits collide. -/
theorem finish_withRemovals_fails (hr : ∀ e ∈ ns.map s.removalEdit, e.range.start ≤ e.range.stop)
    {a b : TextEdit} (ha : a ∈ ns.map s.removalEdit) (hb : b ∈ ns.map s.removalEdit) (hab : a ≠ b)
    (hc : Conflict a b) :
    ∃ err, (s.withRemovals ns).finish name = .error (.edit err) := by
  obtain ⟨pending, hp, hg, hpend⟩ := collectNode_withRemovals h hins hkids hnd
  obtain ⟨flat, hflat, hfin⟩ := finish_edits_perm (s.withRemovals ns) name hraw himp hp hg
  have hfs := hflat.trans hpend
  -- every removal edit is of the unit's file
  have hfile : ∀ e ∈ ns.map s.removalEdit, e.file = s.tree.file := by
    intro e he
    obtain ⟨n, -, rfl⟩ := List.mem_map.1 he
    rfl
  obtain ⟨err, herr⟩ := (normalize_fails_iff fun e he => hr e (hfs.mem_iff.1 he)).2
    ⟨a, hfs.mem_iff.2 ha, b, hfs.mem_iff.2 hb, (hfile a ha).trans (hfile b hb).symm, hab, hc⟩
  rw [herr] at hfin
  cases hf : (s.withRemovals ns).finish name with
  | error e =>
    rw [hf] at hfin
    cases hfin
    exact ⟨err, rfl⟩
  | ok c =>
    rw [hf] at hfin
    cases hfin

end Removals

section Listed

variable (h : s.tree.WellFormed) (hins : s.insertsBefore = []) (hraw : s.rawInserts = [])
  (himp : s.imports.added = []) (hr : r.IsListed) (hsub : ∀ n ∈ ns, n ∈ s.tree.childrenWithRole o r)
  (hnd : ns.Nodup) (name : String)
include h hins hraw himp hr hsub hnd

/-- **Removals from a list whose last two elements do not both go.** On a well-formed unit whose
lists are separated by `", "`, the session with removals of some elements of a list finishes,
and its change writes the text before the list, the elements that stay joined by `", "`, and the
text after the list. -/
theorem finish_withRemovals_listed (hsep : s.tree.ListsSeparated) (hne : ns ≠ [])
    (hlast : ¬ ∃ pre y z, s.tree.childrenWithRole o r = pre ++ [y, z] ∧ y ∈ ns ∧ z ∈ ns) :
    ∃ c, (s.withRemovals ns).finish name = .ok c ∧
      c.apply s.tree.text = .ok (slice s.tree.text 0 (s.tree.listRange o r).start ++
        String.intercalate ", " (((s.tree.childrenWithRole o r).filter (· ∉ ns)).map s.tree.source) ++
        slice s.tree.text (s.tree.listRange o r).stop (byteSize s.tree.text.toList)) := by
  -- the list has a first and a last element
  have hL0 : s.tree.childrenWithRole o r ≠ [] := by
    obtain ⟨n, hn⟩ := List.exists_mem_of_ne_nil ns hne
    exact List.ne_nil_of_mem (hsub n hn)
  obtain ⟨a, rest, hL⟩ := List.exists_cons_of_ne_nil hL0
  obtain ⟨z, hz⟩ : ∃ z, (a :: rest).getLast? = some z := ⟨_, List.getLast?_cons⟩
  have hsweep := applySorted_listRemovals h hsep hr hlast hL hz
  have hfit : ∀ e ∈ ((s.tree.childrenWithRole o r).filter (· ∈ ns)).map s.removalEdit,
      Fits s.tree.text.toList e ∧ e.range.start ≤ e.range.stop := by
    intro e he
    obtain ⟨n, hn, rfl⟩ := List.mem_map.1 he
    exact ⟨(removalEdit_fits h hr (List.mem_of_mem_filter hn)).1,
      (removalEdit_fits h hr (List.mem_of_mem_filter hn)).2.1⟩
  obtain ⟨happ, hback⟩ := applyBackToFront_of_applySorted (fun e he => (hfit e he).2)
    (fun e he => (hfit e he).1) hsweep
  -- the removals are the elements of the list that are in `ns`, in the list's order
  have hperm : (ns.map s.removalEdit).Perm
      (((s.tree.childrenWithRole o r).filter (· ∈ ns)).map s.removalEdit) := by
    refine List.Perm.map _ ((List.perm_ext_iff_of_nodup hnd
      ((SyntaxTree.nodup_childrenWithRole h o r).filter _)).2 fun n => ?_)
    simp only [List.mem_filter, decide_eq_true_eq]
    exact ⟨fun hn => ⟨hsub n hn, hn⟩, And.right⟩
  -- edits one after another have different ranges: each but a lone one removes something
  have hd : (((s.tree.childrenWithRole o r).filter (· ∈ ns)).map s.removalEdit).Pairwise
      fun a b => a.range ≠ b.range := by
    have hpw := ((applySorted_ok_iff _ _ _ fun e he => (hfit e he).2).1 ⟨_, hsweep⟩).2
    by_cases hlen : 2 ≤ (s.tree.childrenWithRole o r).length
    · refine hpw.imp_of_mem fun ha hb hab heq => ?_
      obtain ⟨n, hn, rfl⟩ := List.mem_map.1 ha
      have := (removalEdit_fits h hr (List.mem_of_mem_filter hn)).2.2 hlen
      rw [heq] at hab this
      omega
    · obtain rfl : rest = [] := by
        rw [hL, List.length_cons] at hlen
        exact List.length_eq_zero_iff.1 (by omega)
      rw [hL]
      exact (List.pairwise_singleton _ (s.removalEdit a)).sublist ((List.filter_sublist).map _)
  have hkids : ∀ n ∈ ns, n ∈ s.tree.children o := fun n hn => List.mem_of_mem_filter (hsub n hn)
  obtain ⟨c, hfin, happly⟩ := finish_withRemovals h hins hkids hnd hraw himp name hperm happ hd
    fun e he => (hfit e he).2
  refine ⟨c, hfin, ?_⟩
  rw [happly, hback, SyntaxTree.listRange_of_cons hL hz,
    ← sliceBytes_byteSize (h.boundary z).2, String.ofList_append, String.ofList_toList]
  rfl

/-- **Removing both of the last two elements of a list.** Both removals take the separator
between the two elements, so unless both elements are empty the session cannot be finished: its
edits collide. -/
theorem finish_withRemovals_last_two {pre : List NodeId} {y z : NodeId}
    (hL : s.tree.childrenWithRole o r = pre ++ [y, z]) (hy : y ∈ ns) (hz : z ∈ ns)
    (hempty : s.tree.source y ≠ "" ∨ s.tree.source z ≠ "") :
    ∃ err, (s.withRemovals ns).finish name = .error (.edit err) := by
  have hEy := removalEdit_of_next h hr (⟨pre, [], by simp [hL]⟩ :
    [y, z] <:+: s.tree.childrenWithRole o r)
  have hEz := removalEdit_of_last h hr hL
  have hyz : (s.tree.range y).stop < (s.tree.range z).start := by
    have hpw := SyntaxTree.pairwise_childrenWithRole h o r
    rw [hL, List.pairwise_append] at hpw
    simpa using hpw.2.1
  have hsy := h.start_le_stop y
  have hsz := h.start_le_stop z
  have hkids : ∀ n ∈ ns, n ∈ s.tree.children o := fun n hn => List.mem_of_mem_filter (hsub n hn)
  refine finish_withRemovals_fails h hins hkids hnd hraw himp name ?_ (List.mem_map_of_mem hy)
    (List.mem_map_of_mem hz) ?_ ?_
  · intro e he
    obtain ⟨n, hn, rfl⟩ := List.mem_map.1 he
    exact (removalEdit_fits h hr (hsub n hn)).2.1
  · -- equal edits would be two empty elements
    rw [hEy, hEz]
    intro heq
    simp only [TextEdit.mk.injEq, Range.mk.injEq, true_and, and_true] at heq
    rcases hempty with hey | hez
    · exact hey (by rw [SyntaxTree.source, ← heq.1, slice_self])
    · exact hez (by rw [SyntaxTree.source, heq.2, slice_self])
  · rw [hEy, hEz]
    exact ⟨by dsimp only; omega, by dsimp only; omega⟩

end Listed

end EditSession

/-! ### Removals from a rendered unit -/

section Rendered

variable {ctx : Outline.RenderContext} {u : Outline.SourceUnit} {t : SyntaxTree}
  {declared : List TypeId} {p : Project} {file : FileId} {fmt : Format} {s : EditSession}
  {o : NodeId} {r : Role} {ns : List NodeId}
  (hu : u.render ctx = .ok (t, declared)) (hp : p.unit? file = some t)
  (hs : EditSession.start p file fmt = .ok s) (hsub : ∀ n ∈ ns, n ∈ t.childrenWithRole o r)
  (hnd : ns.Nodup) (hne : ns ≠ [])
include hu hp hs hsub hnd hne

/-- A session started on a rendered unit is on that unit with nothing added, and it records
removals of distinct elements of a list of the unit one after another. -/
theorem EditSession.foldlM_remove_of_render :
    s.tree = t ∧ s.insertsBefore = [] ∧ s.rawInserts = [] ∧ s.imports.added = [] ∧
      ns.foldlM (fun s n => s.remove n) s = .ok (s.withRemovals ns) := by
  obtain ⟨h, -⟩ := u.listsSeparated_of_render hu
  obtain ⟨hch, hins, hraw, hg, himp⟩ := EditSession.start_fresh hs
  have htree : s.tree = t := by
    rw [EditSession.start_of_unit hp fmt] at hs
    cases hs
    rfl
  subst htree
  have hcontains : ∀ n ∈ ns, s.tree.contains n := fun n hn =>
    ((h.mem_children o n).1 (List.mem_of_mem_filter (hsub n hn))).1
  exact ⟨rfl, hins, hraw, himp, EditSession.foldlM_remove hch hg hcontains hnd hne⟩

/-- Removals from a list of a rendered unit whose last two elements do not both go write the
list anew from the elements that stay. -/
theorem finish_removals_of_render (hr : r.IsListed) (name : String)
    (hlast : ¬ ∃ pre y z, t.childrenWithRole o r = pre ++ [y, z] ∧ y ∈ ns ∧ z ∈ ns) :
    ∃ c, (ns.foldlM (fun s n => s.remove n) s >>= (·.finish name)) = .ok c ∧
      c.apply t.text = .ok (slice t.text 0 (t.listRange o r).start ++
        String.intercalate ", " (((t.childrenWithRole o r).filter (· ∉ ns)).map t.source) ++
        slice t.text (t.listRange o r).stop (byteSize t.text.toList)) := by
  obtain ⟨h, hsep⟩ := u.listsSeparated_of_render hu
  obtain ⟨rfl, hins, hraw, himp, hrun⟩ :=
    EditSession.foldlM_remove_of_render hu hp hs hsub hnd hne
  rw [hrun]
  exact EditSession.finish_withRemovals_listed h hins hraw himp hr hsub hnd name hsep hne hlast

/-- Removing both of the last two elements of a list of a rendered unit, one of them not empty,
fails with colliding edits. -/
theorem finish_fails_of_render_removing_last_two (hr : r.IsListed) (name : String)
    {pre : List NodeId} {y z : NodeId} (hL : t.childrenWithRole o r = pre ++ [y, z])
    (hy : y ∈ ns) (hz : z ∈ ns) (hempty : t.source y ≠ "" ∨ t.source z ≠ "") :
    ∃ err, (ns.foldlM (fun s n => s.remove n) s >>= (·.finish name)) = .error (.edit err) := by
  obtain ⟨h, -⟩ := u.listsSeparated_of_render hu
  obtain ⟨rfl, hins, hraw, himp, hrun⟩ :=
    EditSession.foldlM_remove_of_render hu hp hs hsub hnd hne
  rw [hrun]
  exact EditSession.finish_withRemovals_last_two h hins hraw himp hr hsub hnd name hL hy hz hempty

end Rendered

/-- **Removing elements of an argument or parameter list.** On a rendered unit, removing in one
session some elements of a node's argument or parameter list, in any order, gives a change that
writes the text before the list, the elements that stay joined by `", "` in their order, and the
text after the list, unless both of the last two elements are removed. Then the removal of the
last takes the separator before it, which the removal of the one before takes too, and unless
both are empty the change cannot be made: its edits collide. -/
theorem finish_removing_list_elements {ctx : Outline.RenderContext} {u : Outline.SourceUnit}
    {t : SyntaxTree} {declared : List TypeId} {p : Project} {file : FileId} {fmt : Format}
    {s : EditSession} {o : NodeId} {r : Role} {ns : List NodeId}
    (hu : u.render ctx = .ok (t, declared)) (hp : p.unit? file = some t)
    (hs : EditSession.start p file fmt = .ok s) (hr : r.IsListed)
    (hsub : ∀ n ∈ ns, n ∈ t.childrenWithRole o r) (hnd : ns.Nodup) (hne : ns ≠ [])
    (name : String) :
    ((¬ ∃ pre y z, t.childrenWithRole o r = pre ++ [y, z] ∧ y ∈ ns ∧ z ∈ ns) →
      ∃ c, (ns.foldlM (fun s n => s.remove n) s >>= (·.finish name)) = .ok c ∧
        c.apply t.text = .ok (slice t.text 0 (t.listRange o r).start ++
          String.intercalate ", " (((t.childrenWithRole o r).filter (· ∉ ns)).map t.source) ++
          slice t.text (t.listRange o r).stop (byteSize t.text.toList))) ∧
    ((∃ pre y z, t.childrenWithRole o r = pre ++ [y, z] ∧ y ∈ ns ∧ z ∈ ns ∧
        (t.source y ≠ "" ∨ t.source z ≠ "")) →
      ∃ err, (ns.foldlM (fun s n => s.remove n) s >>= (·.finish name)) = .error (.edit err)) := by
  exact ⟨finish_removals_of_render hu hp hs hsub hnd hne hr name,
    fun ⟨_, _, _, hL, hy, hz, hempty⟩ =>
      finish_fails_of_render_removing_last_two hu hp hs hsub hnd hne hr name hL hy hz hempty⟩

/-- The declarations of a class `E` with a static method `foo(int a, int b, int c)` and a method
`run`. -/
def threeArgumentsContext : Outline.RenderContext :=
  match [.type .classType "E" "p" none none "E",
      .method "foo" "E" [("int", "a"), ("int", "b"), ("int", "c")] none { isStatic := true } false
        none "foo",
      .method "run" "E" [] none {} false none "run"].foldlM Setup.declare {} with
  | .ok s => ⟨s.bindings, s.paramsOf⟩
  | .error _ => ⟨Bindings.empty, fun _ => []⟩

/-- The unit
```
package p;

public class E {
    static void foo(int a, int b, int c) {
    }
    void run() {
        foo(1, 2, 3);
    }
}
```
in the file `E.java`, where the call is node 23 and its arguments are nodes 25, 26 and 27. -/
def threeArgumentsUnit : Outline.SourceUnit :=
  { file := "E.java", package := some "p",
    types := [.mk ⟨12⟩ [.method ⟨0⟩ (some []), .method ⟨1⟩ (some
      [.expr (.call none { binding := some (.method ⟨0⟩) }
        [.lit "1" .int, .lit "2" .int, .lit "3" .int])])]] }

/-- The tree of `threeArgumentsUnit`. -/
def threeArgumentsTree : SyntaxTree :=
  ((threeArgumentsUnit.render threeArgumentsContext).toOption.getD default).1

/-- The project of `threeArgumentsUnit` alone. -/
def threeArgumentsProject : Project :=
  { bindings := threeArgumentsContext.bindings, units := [threeArgumentsTree] }

/-- What the statements below read of the rendered unit: that it renders, its file, the
arguments of the call, the text of the middle one and the text around the list. -/
theorem threeArgumentsTree_facts :
    (threeArgumentsUnit.render threeArgumentsContext).toBool = true ∧
      threeArgumentsTree.file = ⟨"E.java"⟩ ∧
      threeArgumentsTree.childrenWithRole ⟨23⟩ .argument = [⟨25⟩, ⟨26⟩, ⟨27⟩] ∧
      threeArgumentsTree.source ⟨26⟩ = "2" ∧
      slice threeArgumentsTree.text 0 (threeArgumentsTree.listRange ⟨23⟩ .argument).start =
        "package p;\n\npublic class E \x7b\n    static void foo(int a, int b, int c) \x7b\n    \x7d\n    void run() \x7b\n        foo(" ∧
      slice threeArgumentsTree.text (threeArgumentsTree.listRange ⟨23⟩ .argument).stop
        (byteSize threeArgumentsTree.text.toList) = ");\n    \x7d\n\x7d\n" := by
  decide +kernel

theorem render_threeArgumentsUnit :
    threeArgumentsUnit.render threeArgumentsContext =
      .ok (threeArgumentsTree, ((threeArgumentsUnit.render threeArgumentsContext).toOption.getD
        default).2) := by
  rw [threeArgumentsTree, Prod.mk.eta]
  exact Except.eq_ok_of_toBool default threeArgumentsTree_facts.1

theorem unit?_threeArgumentsProject :
    threeArgumentsProject.unit? ⟨"E.java"⟩ = some threeArgumentsTree := by
  simp [Project.unit?, threeArgumentsProject, threeArgumentsTree_facts.2.1]

/-- Removing the first and the last argument of `foo(1, 2, 3)` leaves `foo(2)`. -/
theorem finish_removes_first_and_last_arguments :
    ∃ s, EditSession.start threeArgumentsProject ⟨"E.java"⟩ default = .ok s ∧
      ∃ c, ([⟨25⟩, ⟨27⟩].foldlM (fun s n => s.remove n) s >>= (·.finish "Remove")) = .ok c ∧
        c.apply threeArgumentsTree.text = .ok "package p;\n\npublic class E \x7b\n    static void foo(int a, int b, int c) \x7b\n    \x7d\n    void run() \x7b\n        foo(2);\n    \x7d\n\x7d\n" := by
  have hs := EditSession.start_of_unit unit?_threeArgumentsProject default
  obtain ⟨-, -, hL, hsource, hbefore, hafter⟩ := threeArgumentsTree_facts
  obtain ⟨c, hc, happly⟩ := (finish_removing_list_elements render_threeArgumentsUnit
    unit?_threeArgumentsProject hs (.inl rfl)
    (show ∀ n ∈ [⟨25⟩, ⟨27⟩], n ∈ threeArgumentsTree.childrenWithRole ⟨23⟩ .argument by
      rw [hL]; decide) (by decide) (by simp) "Remove").1 (by
      -- the argument before the last stays
      rw [hL]
      rintro ⟨pre, y, z, hpre, hy, -⟩
      have hrev := congrArg List.reverse hpre
      simp only [List.reverse_append, List.reverse_cons, List.reverse_nil, List.nil_append,
        List.cons_append, List.cons.injEq] at hrev
      rw [← hrev.2.1] at hy
      exact absurd hy (by decide))
  refine ⟨_, hs, c, hc, happly.trans ?_⟩
  have hkeep : ([⟨25⟩, ⟨26⟩, ⟨27⟩].filter (· ∉ [⟨25⟩, ⟨27⟩]) : List NodeId) = [⟨26⟩] := by decide
  rw [hL, hkeep, List.map_singleton, String.intercalate_singleton, hsource, hbefore, hafter]
  simp

/-- Removing the last two arguments of `foo(1, 2, 3)` fails: the removal of `2` takes `2, ` and
the removal of `3` takes `, 3`, and the two edits collide. -/
theorem finish_fails_removing_last_two_arguments :
    ∃ s, EditSession.start threeArgumentsProject ⟨"E.java"⟩ default = .ok s ∧
      ∃ err, ([⟨26⟩, ⟨27⟩].foldlM (fun s n => s.remove n) s >>= (·.finish "Remove")) =
        .error (.edit err) := by
  have hs := EditSession.start_of_unit unit?_threeArgumentsProject default
  obtain ⟨-, -, hL, hsource, -⟩ := threeArgumentsTree_facts
  replace hL : threeArgumentsTree.childrenWithRole ⟨23⟩ .argument = [⟨25⟩] ++ [⟨26⟩, ⟨27⟩] := hL
  have hsub : ∀ n ∈ ([⟨26⟩, ⟨27⟩] : List NodeId),
      n ∈ threeArgumentsTree.childrenWithRole ⟨23⟩ .argument := by
    rw [hL]
    decide
  exact ⟨_, hs, finish_fails_of_render_removing_last_two render_threeArgumentsUnit
    unit?_threeArgumentsProject hs hsub (by decide) (by simp) (.inl rfl) "Remove" hL (by decide)
    (by decide) (.inl (by rw [hsource]; decide))⟩

end QuickFix
