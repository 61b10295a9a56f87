import Mathlib.Data.String.Basic
import QuickFix.Proofs.SessionRendering
import QuickFix.Proofs.ImportNames

/-!
# The text of the planned imports

A session plans its imports in order of name, each with the edit group that asked for it, and
`ImportPlan.edits` writes one insertion per import at one place (`ImportPlan.offset`): after the
last import, after the package declaration, or at the top of the unit. Read in their order, the
insertions join to `ImportPlan.block`: the names in order, one per line, after a blank line when
they follow the package declaration, before one when they open the unit (`join_lines`).

`EditSession.finish` takes the insertions group by group, so normalising joins them at their one
place in the order of the groups (`finish_import_text`): they form the block when the groups that
asked for the imports come in the order of the names, and not in general
(`finish_joins_imports_in_group_order`).
-/

namespace QuickFix

/-! ## Lists taken apart by a key -/

theorem List.map_zipIdx_fst {α β : Type} (f : α → β) (l : List α) (k : Nat) :
    (l.zipIdx k).map (fun x => f x.1) = l.map f := by
  conv_rhs => rw [← List.zipIdx_map_fst k l]
  rw [List.map_map]
  rfl

theorem List.flatMap_zipIdx_snd {α β : Type} (l : List α) (f : Nat → List β) :
    l.zipIdx.flatMap (fun x => f x.2) = (List.range l.length).flatMap f := by
  rw [List.range_eq_range', ← List.zipIdx_map_snd 0 l, List.flatMap_map]

/-- In a list sorted by a key whose keys are at least `k`, the elements of key `k` come first. -/
theorem List.filter_append_filter_of_sorted {α : Type} (key : α → Nat) (k : Nat) :
    ∀ (l : List α), l.Pairwise (fun a b => key a ≤ key b) → (∀ a ∈ l, k ≤ key a) →
      l.filter (fun a => key a == k) ++ l.filter (fun a => key a != k) = l
  | [], _, _ => rfl
  | a :: l, hs, hk => by
    have hl := List.filter_append_filter_of_sorted key k l (List.pairwise_cons.1 hs).2
      fun b hb => hk b (List.mem_cons_of_mem _ hb)
    by_cases ha : key a = k
    · simp [ha, hl]
    · -- every later key is past `key a`, itself past `k`
      have hlt : k < key a := Nat.lt_of_le_of_ne (hk a List.mem_cons_self) (Ne.symm ha)
      have hnone : l.filter (fun b => key b == k) = [] := List.filter_eq_nil_iff.2 fun b hb => by
        have := (List.pairwise_cons.1 hs).1 b hb
        simp only [beq_iff_eq]
        omega
      have hall : l.filter (fun b => key b != k) = l := List.filter_eq_self.2 fun b hb => by
        have := (List.pairwise_cons.1 hs).1 b hb
        simp only [bne_iff_ne, ne_eq]
        omega
      simp [ha, hnone, hall]

/-- Taking a list sorted by a key apart key by key, over a run of keys that holds all of them,
gives the list back. -/
theorem List.flatMap_range'_filter_of_sorted {α : Type} (key : α → Nat) :
    ∀ (m k : Nat) (l : List α), l.Pairwise (fun a b => key a ≤ key b) →
      (∀ a ∈ l, k ≤ key a ∧ key a < k + m) →
      (List.range' k m).flatMap (fun i => l.filter fun a => key a == i) = l
  | 0, k, l, _, hk => by
    have : l = [] := List.eq_nil_iff_forall_not_mem.2 fun a ha => by have := hk a ha; omega
    simp [this]
  | m + 1, k, l, hs, hk => by
    rw [List.range'_succ, List.flatMap_cons]
    -- past the key `k`, only the rest of the list counts
    have hrest : ∀ i ∈ List.range' (k + 1) m, (l.filter fun a => key a == i) =
        (l.filter fun a => key a != k).filter fun a => key a == i := by
      intro i hi
      rw [List.filter_filter]
      refine List.filter_congr fun a _ => ?_
      have := (List.mem_range'_1.1 hi).1
      by_cases hai : key a = i
      · simp [hai]; omega
      · simp [hai]
    rw [List.flatMap_congr hrest, List.flatMap_range'_filter_of_sorted key m (k + 1) _
      (hs.sublist List.filter_sublist) fun a ha => ?_]
    · exact List.filter_append_filter_of_sorted key k l hs fun a ha => (hk a ha).1
    · obtain ⟨ha, hne⟩ := List.mem_filter.1 ha
      have := hk a ha
      simp only [bne_iff_ne, ne_eq] at hne
      omega

namespace ImportPlan

variable (p : ImportPlan) (t : SyntaxTree) (sep : String)

/-! ## Where the imports go, and their text -/

/-- The line that imports a name. -/
def importLine (name : String) : String := "import " ++ name ++ ";"

/-- Where the planned imports go: after the last import, else after the package declaration, else
at the top of the unit. -/
def offset : Nat :=
  match p.existing.getLast?.map (fun i => (t.range i.node).stop),
    t.packageDeclaration.map fun n => (t.range n).stop with
  | some e, _ => e
  | none, some e => e
  | none, none => 0

/-- The planned imports in their order, one per line: each on a line of its own after the
existing imports; the same after a blank line after the package declaration; and at the top of
the unit each line ended, with a blank line after them. -/
def block : String :=
  match p.existing.getLast?, t.packageDeclaration with
  | some _, _ => String.join (p.addedNames.map fun n => sep ++ importLine n)
  | none, some _ => sep ++ String.join (p.addedNames.map fun n => sep ++ importLine n)
  | none, none => String.join (p.addedNames.map fun n => importLine n ++ sep) ++ sep

/-- The texts of the insertions, in the order of the planned imports. -/
def lines : List String := (p.edits t sep).map (·.2.text)

/-- The texts of the insertions taken group by group, for `n` groups. -/
def linesByGroup (n : Nat) : List String :=
  (List.range n).flatMap fun i => ((p.edits t sep).filter (·.1 == i)).map (·.2.text)

/-- The text of the insertion for the import of a name at a place of the planned imports. -/
def lineAt (name : String) (idx : Nat) : String :=
  match p.existing.getLast?, t.packageDeclaration with
  | some _, _ => sep ++ importLine name
  | none, some _ => if idx = 0 then sep ++ sep ++ importLine name else sep ++ importLine name
  | none, none =>
    if idx + 1 = p.added.length then importLine name ++ sep ++ sep else importLine name ++ sep

/-! ## The insertions of the planned imports -/

/-- The insertions of the planned imports, one for each, all at the one place of the imports. -/
theorem edits_eq : p.edits t sep = p.added.zipIdx.map fun x =>
    (x.1.2, ⟨t.file, .point (p.offset t), p.lineAt t sep x.1.1 x.2⟩) := by
  unfold edits offset lineAt importLine
  refine List.map_congr_left fun x _ => ?_
  cases p.existing.getLast? with
  | some i => simp [String.append_assoc]
  | none =>
    cases t.packageDeclaration with
    | some n => by_cases h0 : x.2 = 0 <;> simp [h0, String.append_assoc]
    | none => by_cases hn : x.2 + 1 = p.added.length <;> simp [hn, String.append_assoc]

theorem mem_edits {x : Nat × TextEdit} (h : x ∈ p.edits t sep) :
    x.2.file = t.file ∧ x.2.range = .point (p.offset t) := by
  rw [edits_eq] at h
  obtain ⟨y, -, rfl⟩ := List.mem_map.1 h
  exact ⟨rfl, rfl⟩

theorem map_fst_edits : (p.edits t sep).map (·.1) = p.added.map (·.2) := by
  rw [edits_eq, List.map_map]
  exact List.map_zipIdx_fst (·.2) p.added 0

/-- **Read in their order, the insertions write the block.** -/
theorem join_lines (h : p.added ≠ []) : String.join (p.lines t sep) = p.block t sep := by
  have hlines : p.lines t sep = p.added.zipIdx.map fun x => p.lineAt t sep x.1.1 x.2 := by
    simp [lines, edits_eq, Function.comp_def]
  rw [hlines]
  unfold block lineAt addedNames
  cases p.existing.getLast? with
  | some i =>
    rw [List.map_zipIdx_fst (fun y : String × Nat => sep ++ importLine y.1), List.map_map]
    rfl
  | none =>
    cases t.packageDeclaration with
    | some n =>
      -- the first import after a blank line
      obtain ⟨a, rest, hl⟩ := List.exists_cons_of_ne_nil h
      -- the later imports each on a line of their own
      have hrest : (rest.zipIdx (0 + 1)).map (fun x => if x.2 = 0 then sep ++ sep ++ importLine x.1.1
          else sep ++ importLine x.1.1) = rest.map fun y => sep ++ importLine y.1 := by
        rw [← List.map_zipIdx_fst _ rest (0 + 1)]
        refine List.map_congr_left fun x hx => ?_
        have : x.2 ≠ 0 := by have := (List.mem_zipIdx hx).1; omega
        simp [this]
      simp only [hl, List.zipIdx_cons, List.map_cons, String.join_cons, hrest, List.map_map]
      simp [Function.comp_def, String.append_assoc]
    | none =>
      -- a blank line after the last import
      have hl := (List.dropLast_append_getLast h).symm
      generalize p.added.dropLast = init at hl
      generalize p.added.getLast h = a at hl
      -- the imports before the last each end their line
      have hinit : init.zipIdx.map (fun x => if x.2 + 1 = (init ++ [a]).length
          then importLine x.1.1 ++ sep ++ sep else importLine x.1.1 ++ sep) =
          init.map fun y => importLine y.1 ++ sep := by
        rw [← List.map_zipIdx_fst _ init 0]
        refine List.map_congr_left fun x hx => ?_
        have : x.2 ≠ init.length := by have := (List.mem_zipIdx hx).2.1; omega
        simp [this]
      simp only [hl, List.zipIdx_append, List.map_append, String.join_append, hinit, List.map_map]
      simp [Function.comp_def, String.append_assoc]

/-- When the groups that asked for the imports come in the order of the names, taking the
insertions group by group keeps their order. -/
theorem linesByGroup_of_sorted {n : Nat} (hs : (p.added.map (·.2)).Pairwise (· ≤ ·))
    (hn : ∀ x ∈ p.added, x.2 < n) : p.linesByGroup t sep n = p.lines t sep := by
  have hsorted : (p.edits t sep).Pairwise fun a b => a.1 ≤ b.1 := by
    rw [← map_fst_edits p t sep] at hs
    exact List.pairwise_map.1 hs
  have hkeys : ∀ x ∈ p.edits t sep, 0 ≤ x.1 ∧ x.1 < 0 + n := by
    intro x hx
    have : x.1 ∈ p.added.map (·.2) :=
      map_fst_edits p t sep ▸ List.mem_map_of_mem (f := fun x : Nat × TextEdit => x.1) hx
    obtain ⟨y, hy, hxy⟩ := List.mem_map.1 this
    exact ⟨Nat.zero_le _, by rw [← hxy]; simpa using hn y hy⟩
  rw [linesByGroup, lines, ← List.map_flatMap, List.range_eq_range']
  congr 1
  exact List.flatMap_range'_filter_of_sorted (fun x : Nat × TextEdit => x.1) n 0 _ hsorted hkeys

end ImportPlan

namespace EditSession

variable (s : EditSession)

/-- The edits that `finish` normalises, group by group: in each, the walk's edits, the raw
insertions and the insertions of planned imports. -/
def finishEdits (pending : List PendingEdit) : List TextEdit :=
  (List.range s.groupCount).flatMap fun i =>
    (pending.filter (·.group == i)).map s.toEdit ++
      (s.rawInserts.filter (·.2.2 == i)).map (fun r => ⟨s.tree.file, Range.point r.1, r.2.1⟩) ++
      ((s.imports.edits s.tree s.separator).filter (·.1 == i)).map (·.2)

/-- `finish` normalises the edits of its groups, one group after another. -/
theorem finish_map_edits_eq (name : String) {pending : List PendingEdit}
    (hp : s.collectNode s.fuel SyntaxTree.root = .ok pending) :
    (s.finish name).map (·.edits) = (normalize (s.finishEdits pending)).mapError .edit := by
  have hlen : (if s.groups.isEmpty then [""] else s.groups).length = s.groupCount := by
    unfold groupCount
    split <;> rfl
  have hflat : ((if s.groups.isEmpty then [""] else s.groups).zipIdx.map fun x =>
      ({ description := x.1,
         edits := (pending.filter (·.group == x.2)).map (fun p => ⟨s.tree.file, p.range, p.text⟩) ++
           (s.rawInserts.filter (·.2.2 == x.2)).map (fun r => ⟨s.tree.file, Range.point r.1, r.2.1⟩) ++
           ((s.imports.edits s.tree s.separator).filter (·.1 == x.2)).map (·.2) } : EditGroup)).flatMap
        (·.edits) = s.finishEdits pending := by
    rw [List.flatMap_map, finishEdits, ← hlen, ← List.flatMap_zipIdx_snd]
    rfl
  rw [finish, hp]
  dsimp only [bind, Except.bind]
  rw [hflat]
  -- the change carries the normalised edits as they come
  split
  · rename_i err heq
    exact heq.symm
  · rename_i v heq
    exact heq.symm

/-- Where nothing else is inserted at the place of the imports, the texts joined there are the
insertions of the imports, group after group. -/
theorem targetTexts_finishEdits {pending : List PendingEdit}
    (hpend : ∀ q ∈ pending, q.range ≠ .point (s.imports.offset s.tree))
    (hraw : ∀ r ∈ s.rawInserts, r.1 ≠ s.imports.offset s.tree) :
    TextEdit.targetTexts (s.finishEdits pending) (s.tree.file, .point (s.imports.offset s.tree)) =
      s.imports.linesByGroup s.tree s.separator s.groupCount := by
  unfold TextEdit.targetTexts finishEdits ImportPlan.linesByGroup
  rw [List.filter_flatMap, List.map_flatMap]
  refine List.flatMap_congr fun i _ => ?_
  rw [List.filter_append, List.filter_append]
  -- the walk's edits and the raw insertions are elsewhere
  have hwalk : ((pending.filter (·.group == i)).map s.toEdit).filter
      (fun e => decide (e.target = (s.tree.file, .point (s.imports.offset s.tree)))) = [] := by
    refine List.filter_eq_nil_iff.2 fun e he => ?_
    obtain ⟨q, hq, rfl⟩ := List.mem_map.1 he
    simpa [toEdit, TextEdit.target] using hpend q (List.mem_filter.1 hq).1
  have hrawi : ((s.rawInserts.filter (·.2.2 == i)).map
      (fun r => (⟨s.tree.file, Range.point r.1, r.2.1⟩ : TextEdit))).filter
      (fun e => decide (e.target = (s.tree.file, .point (s.imports.offset s.tree)))) = [] := by
    refine List.filter_eq_nil_iff.2 fun e he => ?_
    obtain ⟨r, hr, rfl⟩ := List.mem_map.1 he
    have := hraw r (List.mem_filter.1 hr).1
    simpa [TextEdit.target, Range.point] using this
  -- every insertion of an import is there
  have himp : (((s.imports.edits s.tree s.separator).filter (·.1 == i)).map (·.2)).filter
      (fun e => decide (e.target = (s.tree.file, .point (s.imports.offset s.tree)))) =
      ((s.imports.edits s.tree s.separator).filter (·.1 == i)).map (·.2) := by
    refine List.filter_eq_self.2 fun e he => ?_
    obtain ⟨x, hx, rfl⟩ := List.mem_map.1 he
    obtain ⟨hf, hr⟩ := ImportPlan.mem_edits _ _ _ (List.mem_filter.1 hx).1
    simp [TextEdit.target, hf, hr]
  rw [hwalk, hrawi, himp, List.nil_append, List.nil_append, List.map_map]
  rfl

/-- **The imports are written group by group.** When `finish` succeeds, each planned import
belongs to one of the session's groups, and nothing else is inserted where the imports go, the
change writes one edit there, whose text joins the insertions of the imports group after group,
each group's in the order of the names. When the groups that asked for the imports come in the
order of the names, the insertions are joined in that order, and read in that order they write
the block: the names in order, one per line. -/
theorem finish_import_text {name : String} {c : UnitChange} {pending : List PendingEdit}
    (hp : s.collectNode s.fuel SyntaxTree.root = .ok pending) (hc : s.finish name = .ok c)
    (hne : s.imports.added ≠ []) (hgroups : ∀ x ∈ s.imports.added, x.2 < s.groupCount)
    (hpend : ∀ q ∈ pending, q.range ≠ .point (s.imports.offset s.tree))
    (hraw : ∀ r ∈ s.rawInserts, r.1 ≠ s.imports.offset s.tree) :
    ∃ o ∈ c.edits, o.file = s.tree.file ∧ o.range = .point (s.imports.offset s.tree) ∧
      o.text = TextEdit.mergeTexts (s.imports.linesByGroup s.tree s.separator s.groupCount) ∧
      ((s.imports.added.map (·.2)).Pairwise (· ≤ ·) →
        o.text = TextEdit.mergeTexts (s.imports.lines s.tree s.separator) ∧
        String.join (s.imports.lines s.tree s.separator) = s.imports.block s.tree s.separator) := by
  have hN : normalize (s.finishEdits pending) = .ok c.edits := by
    have h := s.finish_map_edits_eq name hp
    rw [hc] at h
    exact Except.mapError_eq_ok_iff.1 h.symm
  obtain ⟨hj, -⟩ := normalize_eq_ok_iff.1 hN
  obtain ⟨-, -, hdst, htext, -⟩ := TextEdit.joinAll_spec (TextEdit.pairwise_sort _) hj
  -- the insertion of the first planned import is among the edits normalised
  obtain ⟨e, he⟩ : ∃ e, e ∈ s.imports.edits s.tree s.separator := by
    have : s.imports.edits s.tree s.separator ≠ [] := by
      intro h
      have := ImportPlan.map_fst_edits s.imports s.tree s.separator
      simp [h] at this
      exact hne this
    exact List.exists_mem_of_ne_nil _ this
  have hgroup : e.1 < s.groupCount := by
    have : e.1 ∈ s.imports.added.map (·.2) :=
      ImportPlan.map_fst_edits _ _ _ ▸ List.mem_map_of_mem (f := fun x : Nat × TextEdit => x.1) he
    obtain ⟨x, hx, hxe⟩ := List.mem_map.1 this
    exact hxe ▸ hgroups x hx
  have hflat : e.2 ∈ s.finishEdits pending := List.mem_flatMap.2 ⟨e.1, List.mem_range.2 hgroup,
    List.mem_append_right _ (List.mem_map.2 ⟨e, List.mem_filter.2 ⟨he, by simp⟩, rfl⟩)⟩
  obtain ⟨o, ho, hoe⟩ := hdst e.2 ((TextEdit.perm_sort _).mem_iff.2 hflat)
  obtain ⟨hef, her⟩ := ImportPlan.mem_edits _ _ _ he
  have hot : o.target = (s.tree.file, .point (s.imports.offset s.tree)) := by
    rw [hoe, TextEdit.target, hef, her]
  have htexts : o.text = TextEdit.mergeTexts (s.imports.linesByGroup s.tree s.separator s.groupCount) := by
    rw [htext o ho, TextEdit.targetTexts_sort, hot, targetTexts_finishEdits s hpend hraw]
  refine ⟨o, ho, congrArg Prod.fst hot, congrArg Prod.snd hot, htexts, fun hs => ⟨?_, ?_⟩⟩
  · rw [htexts, ImportPlan.linesByGroup_of_sorted _ _ _ hs hgroups]
  · exact ImportPlan.join_lines _ _ _ hne

end EditSession

/-! ## Imports asked for against the order of their names -/

/-- The unit
```
package p;

public class E {
}
```
of a program that also has the classes `q.B` and `r.A`. -/
@[irreducible] def classWithTwoImportable : Project :=
  let setup : Except String Setup := do
    let s ← [.type .classType "E" "p" none none "E", .type .classType "B" "q" none none "B",
        .type .classType "A" "r" none none "A"].foldlM Setup.declare {}
    match s.writeUnit { file := "E.java", package := some "p", types := [.mk ⟨12⟩ []] } with
    | .ok s => pure s
    | .error _ => throw "render"
  match setup with
  | .ok s => s.project
  | .error _ => default

/-- `r.A` imported in a first group, `q.B` in a second. -/
def importsAgainstNameOrder : Except FixError EditSession := do
  let s ← EditSession.start classWithTwoImportable ⟨"E.java"⟩ default
  let s := ((s.beginGroup "first").addImport ⟨14⟩).2
  pure ((s.beginGroup "second").addImport ⟨13⟩).2

/-- The session of `importsAgainstNameOrder`: the walk writes nothing, and the two insertions,
`r.A` first, join at the end of the package declaration. -/
theorem importsAgainstNameOrder_finish :
    ∃ s, importsAgainstNameOrder = .ok s ∧ s.collectNode s.fuel SyntaxTree.root = .ok [] ∧
      ∃ c, s.finish "rewrite" = .ok c ∧
        c.edits = [⟨⟨"E.java"⟩, .point 10, "\nimport r.A;\n\nimport q.B;"⟩] := by
  have hs := Except.eq_ok_of_toBool default (x := importsAgainstNameOrder) (by decide +kernel)
  refine ⟨_, hs, ?_⟩
  set s := importsAgainstNameOrder.toOption.getD default with hsdef
  have hp : s.collectNode s.fuel SyntaxTree.root = .ok [] := by
    obtain ⟨pending, hp, hpe⟩ := Except.exists_of_map_eq_ok (x := s.collectNode s.fuel SyntaxTree.root)
      (f := List.map s.toEdit) (b := []) (by rw [hsdef]; decide +kernel)
    rwa [List.map_eq_nil_iff.1 hpe] at hp
  have hflat : s.finishEdits [] = [⟨⟨"E.java"⟩, .point 10, "\nimport r.A;"⟩,
      ⟨⟨"E.java"⟩, .point 10, "\n\nimport q.B;"⟩] := by
    rw [hsdef]; decide +kernel
  have hN : normalize (s.finishEdits []) =
      .ok [⟨⟨"E.java"⟩, .point 10, "\nimport r.A;\n\nimport q.B;"⟩] := by
    rw [hflat, normalize, TextEdit.sort, List.mergeSort_of_pairwise (by decide)]
    decide
  have hfin := s.finish_map_edits_eq "rewrite" hp
  rw [hN] at hfin
  refine ⟨hp, ?_⟩
  cases hc : s.finish "rewrite" with
  | error err => rw [hc] at hfin; cases hfin
  | ok c =>
    rw [hc] at hfin
    exact ⟨c, rfl, Except.ok.inj hfin⟩

/-- **The imports follow the groups.** With `r.A` asked for in a first group and `q.B` in a
second, the change inserts `r.A` first, on its own line, then a blank line and `q.B`; the block
of the two names in order puts the blank line first and `q.B` before `r.A`. -/
theorem finish_joins_imports_in_group_order :
    ∃ s, importsAgainstNameOrder = .ok s ∧ ∃ c, s.finish "rewrite" = .ok c ∧
      c.edits = [⟨⟨"E.java"⟩, .point 10, "\nimport r.A;\n\nimport q.B;"⟩] ∧
      s.imports.block s.tree s.separator = "\n\nimport q.B;\nimport r.A;" := by
  obtain ⟨s, hs, -, c, hc, hedits⟩ := importsAgainstNameOrder_finish
  refine ⟨s, hs, c, hc, hedits, ?_⟩
  have hsdef : s = importsAgainstNameOrder.toOption.getD default := by rw [hs]; rfl
  rw [hsdef]
  decide +kernel

/-- The change of `importsAgainstNameOrder` joins the insertions at the place of the imports
group after group. -/
theorem finish_import_text_against_name_order :
    ∃ s, importsAgainstNameOrder = .ok s ∧ ∃ c, s.finish "rewrite" = .ok c ∧
      ∃ o ∈ c.edits, o.range = .point (s.imports.offset s.tree) ∧
        o.text = TextEdit.mergeTexts (s.imports.linesByGroup s.tree s.separator s.groupCount) := by
  obtain ⟨s, hs, hp, c, hc, -⟩ := importsAgainstNameOrder_finish
  have hsdef : s = importsAgainstNameOrder.toOption.getD default := by rw [hs]; rfl
  have hne : s.imports.added ≠ [] := by rw [hsdef]; decide +kernel
  have hgroups : ∀ x ∈ s.imports.added, x.2 < s.groupCount := by rw [hsdef]; decide +kernel
  have hraw : ∀ r ∈ s.rawInserts, r.1 ≠ s.imports.offset s.tree := by rw [hsdef]; decide +kernel
  obtain ⟨o, ho, -, hr, ht, -⟩ :=
    EditSession.finish_import_text s hp hc hne hgroups (fun q hq => by cases hq) hraw
  exact ⟨s, hs, c, hc, o, ho, hr, ht⟩

end QuickFix
