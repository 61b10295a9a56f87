import Mathlib.Data.List.Perm.Basic
import QuickFix.Fix.Imports
import QuickFix.Setup.Declaration

/-!
# Names that imports hand out

A fix asks its unit's `ImportPlan` for the name to write for each type it mentions; the plan
records a single-type import when one is needed (`ImportPlan.addImport`), and a session asks for
one type after another (`ImportPlan.addAll`).

Main statement: the imports a session records never clash (`ImportPlan.addAll_records_apart`): no
name is recorded twice, no two recorded names end in the same simple name, and none ends in the
simple name of a type declared in the unit or of a single-type import of another type that the
unit already has. Each request keeps these facts (`ImportPlan.Apart.addImport`), since a name is
recorded only past the checks for all three.

The names handed out need not be consistent: a simple name written for a type of the unit's
package, of `java.lang` or of an on-demand import is not recorded, so a later request for another
type of that simple name records its import and gets the same simple name, after which the first
type is written by its qualified name (`addAll_gives_Y_to_two_types`).
-/

namespace QuickFix

namespace ImportPlan

/-- Recording a name not recorded yet adds it to the recorded names. -/
theorem map_fst_insertSorted_perm {q : String} {g : Nat} :
    ∀ {l : List (String × Nat)}, q ∉ l.map (·.1) →
      ((insertSorted q g l).map (·.1)).Perm (q :: l.map (·.1))
  | [], _ => by simp [insertSorted]
  | (n, k) :: rest, h => by
    simp only [List.map_cons, List.mem_cons, not_or] at h
    unfold insertSorted
    split_ifs with h₁ h₂
    · exact absurd (beq_iff_eq.1 h₁).symm h.1
    · simp
    · simp only [List.map_cons]
      exact ((map_fst_insertSorted_perm h.2).cons n).trans (List.Perm.swap q n _)

/-- A request either leaves the plan as it is, or records the import of the requested type: when
no import of it is recorded yet, no type declared in the unit has its simple name, and no
other import claims that name. -/
theorem addImport_snd_cases (p : ImportPlan) (b : Bindings) (ty : TypeId) (g : Nat) :
    (p.addImport b ty g).2 = p ∨
      (p.plans (b.qualifiedName (b.erase ty)) = false ∧
        p.localNames.contains (b.ty (b.erase ty)).name = false ∧
        p.importsOther (b.ty (b.erase ty)).name (b.qualifiedName (b.erase ty)) = false ∧
        (p.addImport b ty g).2 =
          { p with added := insertSorted (b.qualifiedName (b.erase ty)) g p.added }) := by
  unfold addImport
  dsimp only
  split_ifs with h₁ h₂ h₃ h₄ h₅ h₆ h₇
  all_goals first | exact .inl rfl | skip
  -- the last branch: nothing recorded and nothing in the way
  simp only [Bool.or_eq_true, not_or, Bool.not_eq_true] at h₅ h₆
  exact .inr ⟨h₅.2, h₆.1, h₆.2, rfl⟩

theorem addImport_snd_localNames (p : ImportPlan) (b : Bindings) (ty : TypeId) (g : Nat) :
    (p.addImport b ty g).2.localNames = p.localNames := by
  rcases p.addImport_snd_cases b ty g with h | ⟨-, -, -, h⟩ <;> rw [h]

theorem addImport_snd_existing (p : ImportPlan) (b : Bindings) (ty : TypeId) (g : Nat) :
    (p.addImport b ty g).2.existing = p.existing := by
  rcases p.addImport_snd_cases b ty g with h | ⟨-, -, -, h⟩ <;> rw [h]

/-- The recorded imports **stay apart**: no name is recorded twice, no two recorded names end in
the same simple name, none ends in the simple name of a type declared in the unit, and none ends
in the simple name of a single-type import of another type that the unit has. -/
structure Apart (p : ImportPlan) : Prop where
  nodup : p.addedNames.Nodup
  simple_ne : p.addedNames.Pairwise fun x y => lastSegment x ≠ lastSegment y
  not_local : ∀ q ∈ p.addedNames, lastSegment q ∉ p.localNames
  not_imported : ∀ q ∈ p.addedNames, ∀ i ∈ p.existing, i.isStatic = false → i.onDemand = false →
    i.simpleName = lastSegment q → i.name = q

theorem apart_of_added_eq_nil {p : ImportPlan} (h : p.added = []) : p.Apart where
  nodup := by simp [addedNames, h]
  simple_ne := by simp [addedNames, h]
  not_local := by simp [addedNames, h]
  not_imported := by simp [addedNames, h]

/-- **Step lemma**: a request keeps the recorded imports apart, provided the requested type's
simple name is the last segment of its qualified name. -/
theorem Apart.addImport {p : ImportPlan} (h : p.Apart) (b : Bindings) (ty : TypeId) (g : Nat)
    (hname : lastSegment (b.qualifiedName (b.erase ty)) = (b.ty (b.erase ty)).name) :
    (p.addImport b ty g).2.Apart := by
  rcases p.addImport_snd_cases b ty g with hp | ⟨hplans, hlocal, hother, hp⟩
  · rwa [hp]
  rw [hp]
  set q := b.qualifiedName (b.erase ty)
  set s := (b.ty (b.erase ty)).name
  -- what the checks say about the names recorded so far and the unit's imports
  have hq : q ∉ p.addedNames := by
    simp only [plans, List.any_eq_false, beq_iff_eq] at hplans
    simp only [addedNames, List.mem_map, not_exists, not_and]
    exact fun x hx hxq => hplans x hx hxq
  have hother' : (∀ i ∈ p.existing, ¬(i.isStatic = false ∧ i.onDemand = false ∧
      i.simpleName = s ∧ i.name ≠ q)) ∧ ∀ k ∈ p.addedNames, k ≠ q → lastSegment k ≠ s := by
    simp only [importsOther, Bool.or_eq_false_iff, List.any_eq_false] at hother
    refine ⟨fun i hi => by simpa using hother.1 i hi, fun k hk hkq => ?_⟩
    obtain ⟨⟨k', g'⟩, hk', rfl⟩ := List.mem_map.1 hk
    simpa [hkq] using hother.2 _ hk'
  have hperm : (insertSorted q g p.added).map (·.1) |>.Perm (q :: p.addedNames) :=
    map_fst_insertSorted_perm hq
  have hmem : ∀ x, x ∈ (insertSorted q g p.added).map (·.1) ↔ x = q ∨ x ∈ p.addedNames := by
    intro x
    rw [hperm.mem_iff, List.mem_cons]
  refine ⟨?_, ?_, fun x hx => ?_, fun x hx i hi hs ho hsx => ?_⟩
  · exact (List.nodup_cons.2 ⟨hq, h.nodup⟩).perm hperm.symm
  · refine (List.Perm.pairwise_iff (fun {a b} hab => Ne.symm hab) hperm).2
      (List.pairwise_cons.2 ⟨fun k hk hne => ?_, h.simple_ne⟩)
    exact hother'.2 k hk (fun hkq => hq (hkq ▸ hk)) (hne.symm.trans hname)
  · rcases (hmem x).1 hx with rfl | hx
    · rw [hname]
      simpa using hlocal
    · exact h.not_local x hx
  · rcases (hmem x).1 hx with rfl | hx
    · by_contra hne
      exact hother'.1 i hi ⟨hs, ho, hsx.trans hname, hne⟩
    · exact h.not_imported x hx i hi hs ho hsx

/-- The names a sequence of requests gets, in order, and the plan after them. -/
def addAll (p : ImportPlan) (b : Bindings) : List (TypeId × Nat) → List String × ImportPlan
  | [] => ([], p)
  | (ty, g) :: rest =>
    let (n, p') := p.addImport b ty g
    let (ns, p'') := p'.addAll b rest
    (n :: ns, p'')

/-- **Run lemma**: a sequence of requests keeps the recorded imports apart. -/
theorem Apart.addAll {p : ImportPlan} (h : p.Apart) (b : Bindings) :
    ∀ (reqs : List (TypeId × Nat)),
      (∀ r ∈ reqs, lastSegment (b.qualifiedName (b.erase r.1)) = (b.ty (b.erase r.1)).name) →
      (p.addAll b reqs).2.Apart ∧ (p.addAll b reqs).2.localNames = p.localNames ∧
        (p.addAll b reqs).2.existing = p.existing
  | [], _ => ⟨h, rfl, rfl⟩
  | (ty, g) :: rest, hnames => by
    have hname : lastSegment (b.qualifiedName (b.erase ty)) = (b.ty (b.erase ty)).name :=
      hnames (ty, g) List.mem_cons_self
    have hstep := h.addImport b ty g hname
    obtain ⟨hrest, hl, he⟩ := hstep.addAll b rest fun r hr => hnames r (List.mem_cons_of_mem _ hr)
    refine ⟨hrest, ?_, ?_⟩
    · simp only [ImportPlan.addAll]
      rw [hl, addImport_snd_localNames]
    · simp only [ImportPlan.addAll]
      rw [he, addImport_snd_existing]

/-! ### Sessions of a unit -/

/-- **The imports a session records never clash.** Whatever types a unit's session asks for, in
whatever order, no name is recorded twice, no two recorded names have the same simple name, and
none has the simple name of a type declared in the unit or of a single-type import of another
type that the unit has, provided each requested type's simple name is the last segment of its
qualified name. -/
theorem addAll_records_apart (t : SyntaxTree) (b : Bindings) (reqs : List (TypeId × Nat))
    (hnames : ∀ r ∈ reqs, lastSegment (b.qualifiedName (b.erase r.1)) = (b.ty (b.erase r.1)).name) :
    let added := ((ofTree t b).addAll b reqs).2.addedNames
    added.Nodup ∧ added.Pairwise (fun x y => lastSegment x ≠ lastSegment y) ∧
      ∀ q ∈ added, lastSegment q ∉ (ofTree t b).localNames ∧
        ∀ i ∈ t.imports, i.isStatic = false → i.onDemand = false → i.simpleName = lastSegment q →
          i.name = q := by
  obtain ⟨h, hl, he⟩ := (apart_of_added_eq_nil (p := ofTree t b) rfl).addAll b reqs hnames
  refine ⟨h.nodup, h.simple_ne, fun q hq => ⟨hl ▸ h.not_local q hq, fun i hi => ?_⟩⟩
  exact h.not_imported q hq i (he ▸ hi)

end ImportPlan

/-- The program of the unit `package p; public class E {}`, with a class `Y` in `p` and another
class `Y` in `r`. -/
def twoClassesNamedY : Project :=
  let setup : Except String Setup := do
    let s ← [.type .classType "E" "p" none none "E", .type .classType "Y" "p" none none "Y",
        .type .classType "Y" "r" none none "rY"].foldlM Setup.declare {}
    match s.writeUnit { file := "E.java", package := some "p", types := [.mk ⟨12⟩ []] } with
    | .ok s => pure s
    | .error _ => throw "render"
  match setup with
  | .ok s => s.project
  | .error _ => default

/-- The requests `p.Y`, `r.Y`, `p.Y` of a session of `E.java`. -/
def requestsForY : List (TypeId × Nat) := [(⟨13⟩, 0), (⟨14⟩, 1), (⟨13⟩, 2)]

theorem addAll_records_apart_for_Y :
    let t := (twoClassesNamedY.unit? ⟨"E.java"⟩).getD default
    let b := twoClassesNamedY.bindings
    (∀ r ∈ requestsForY,
      ImportPlan.lastSegment (b.qualifiedName (b.erase r.1)) = (b.ty (b.erase r.1)).name) ∧
    let added := ((ImportPlan.ofTree t b).addAll b requestsForY).2.addedNames
    added.Nodup ∧ added.Pairwise (fun x y => ImportPlan.lastSegment x ≠ ImportPlan.lastSegment y) ∧
      ∀ q ∈ added, ImportPlan.lastSegment q ∉ (ImportPlan.ofTree t b).localNames ∧
        ∀ i ∈ t.imports, i.isStatic = false → i.onDemand = false →
          i.simpleName = ImportPlan.lastSegment q → i.name = q :=
  have hnames : ∀ r ∈ requestsForY, ImportPlan.lastSegment (twoClassesNamedY.bindings.qualifiedName
      (twoClassesNamedY.bindings.erase r.1)) =
        (twoClassesNamedY.bindings.ty (twoClassesNamedY.bindings.erase r.1)).name := by
    decide +kernel
  ⟨hnames, ImportPlan.addAll_records_apart _ _ _ hnames⟩

/-- **One simple name for two types, two spellings for one type.** In a session of `E.java`,
`p.Y` is written `Y` (a class of the unit's package, no other `Y` imported); then `r.Y` gets
its import recorded and is written `Y` as well; then `p.Y` is written `p.Y`. -/
theorem addAll_gives_Y_to_two_types :
    ((ImportPlan.ofTree ((twoClassesNamedY.unit? ⟨"E.java"⟩).getD default)
      twoClassesNamedY.bindings).addAll twoClassesNamedY.bindings requestsForY).1 =
      ["Y", "Y", "p.Y"] := by
  decide +kernel

end QuickFix
