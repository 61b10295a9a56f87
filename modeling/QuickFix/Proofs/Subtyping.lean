import QuickFix.Binding.Hierarchy
import Mathlib.Logic.Relation
import Mathlib.Data.Finset.Card
import Mathlib.Data.List.TakeWhile

/-!
# Sub-typing and the type hierarchy

`reachFrom` walks a graph breadth first, taking each element once, for at most `fuel` new
elements. When every element the walk can meet lies in a finite set that the steps never leave,
and the fuel is at least the size of that set, the fuel never runs out early: the walk lists
exactly the elements reached from the start, each once, the start first.

In a **well-formed** binding table every superclass and interface names an entry, and an
instantiation comes after its generic declaration, so the types of the table and the start of a
walk form such a set. The walks of `isSubtype` and `hierarchy`, given one step more than the
table has types, are then the full closures of their steps, cyclic hierarchies included.

Main statement (`isSubtype_preorder`): when `Object` has no supertypes, sub-typing between
reference types holds exactly when the walk from the subtype reaches the supertype or the
supertype normalizes to `Object`; it is reflexive and transitive; `Object` is a supertype of every
reference type; the hierarchy of a type lists each erased type reachable from it once, its own
erasure first; and when no generic declaration is itself an instantiation, sub-typing without type
arguments holds exactly when the erasure of the supertype is `Object` or lies in the hierarchy of
the subtype.
-/

namespace QuickFix

/-! ### Breadth-first walks -/

section Walk

variable {α : Type} (step : α → List α)

/-- `y` is reached from `x` by zero or more steps. -/
def Reaches : α → α → Prop := Relation.ReflTransGen fun a b => b ∈ step a

variable {step}

/-- Steps that agree on a set the first one never leaves reach the same elements from inside it. -/
theorem reaches_congr {step' : α → List α} {P : α → Prop} (hP : ∀ x y, P x → y ∈ step x → P y)
    (heq : ∀ x, P x → step x = step' x) {x y : α} (hx : P x) :
    Reaches step x y ↔ Reaches step' x y := by
  have hP' : ∀ x y, P x → y ∈ step' x → P y := fun x y hx hy => hP x y hx (heq x hx ▸ hy)
  -- each direction carries `P` along the path
  have fwd : ∀ {y}, Reaches step x y → P y ∧ Reaches step' x y := by
    intro y h
    induction h with
    | refl => exact ⟨hx, .refl⟩
    | tail _ hbc ih => exact ⟨hP _ _ ih.1 hbc, ih.2.tail (heq _ ih.1 ▸ hbc)⟩
  have bwd : ∀ {y}, Reaches step' x y → P y ∧ Reaches step x y := by
    intro y h
    induction h with
    | refl => exact ⟨hx, .refl⟩
    | tail _ hbc ih => exact ⟨hP' _ _ ih.1 hbc, ih.2.tail ((heq _ ih.1).symm ▸ hbc)⟩
  exact ⟨fun h => (fwd h).2, fun h => (bwd h).2⟩

/-- From an element without steps only the element itself is reached. -/
theorem eq_of_reaches_of_step_eq_nil {x y : α} (hx : step x = []) (h : Reaches step x y) :
    y = x := by
  rcases Relation.ReflTransGen.cases_head h with rfl | ⟨z, hz, -⟩
  · rfl
  · simp [hx] at hz

variable [DecidableEq α]

/-- A list of distinct elements of a finite set, as long as the set, holds all of it. -/
theorem mem_of_card_le_length {U : Finset α} {l : List α} (hl : ∀ x ∈ l, x ∈ U) (hnd : l.Nodup)
    (hcard : U.card ≤ l.length) {x : α} (hx : x ∈ U) : x ∈ l := by
  have hsub : l.toFinset ⊆ U := fun y hy => hl y (List.mem_toFinset.1 hy)
  have heq : l.toFinset = U :=
    Finset.eq_of_subset_of_card_le hsub (by rw [List.toFinset_card_of_nodup hnd]; exact hcard)
  exact List.mem_toFinset.1 (heq ▸ hx)

/-- What the walk takes next: the first element of the queue not seen yet, everything before it
seen already. -/
theorem dropWhile_contains_eq_cons {queue seen rest : List α} {x : α}
    (h : queue.dropWhile seen.contains = x :: rest) :
    x ∉ seen ∧ ∃ pre, queue = pre ++ x :: rest ∧ ∀ y ∈ pre, y ∈ seen := by
  have hx := @List.head_dropWhile_not _ seen.contains queue (by simp [h])
  simp only [h, List.head_cons] at hx
  refine ⟨by simpa using hx, queue.takeWhile seen.contains, ?_, fun y hy => ?_⟩
  · rw [← h, List.takeWhile_append_dropWhile]
  · simpa using List.mem_takeWhile_imp hy

/-- The walk lists what it has seen first, in the order seen. -/
theorem reachFrom_eq_append (fuel : Nat) (queue seen : List α) :
    ∃ l, reachFrom step fuel queue seen = seen.reverse ++ l := by
  induction fuel generalizing queue seen with
  | zero => exact ⟨[], by simp [reachFrom]⟩
  | succ fuel ih =>
    rw [reachFrom]
    split
    · exact ⟨[], by simp⟩
    · next x rest _ =>
      obtain ⟨l, hl⟩ := ih (rest ++ step x) (x :: seen)
      exact ⟨x :: l, by simp [hl]⟩

theorem mem_reachFrom_of_mem_seen (fuel : Nat) (queue : List α) {seen : List α} {x : α}
    (hx : x ∈ seen) : x ∈ reachFrom step fuel queue seen := by
  obtain ⟨l, hl⟩ := @reachFrom_eq_append _ step _ fuel queue seen
  simp [hl, hx]

/-- The walk takes each element at most once. -/
theorem nodup_reachFrom (fuel : Nat) {queue seen : List α} (h : seen.Nodup) :
    (reachFrom step fuel queue seen).Nodup := by
  induction fuel generalizing queue seen with
  | zero => simpa [reachFrom] using h
  | succ fuel ih =>
    rw [reachFrom]
    split
    · exact List.nodup_reverse.2 h
    · next x rest hx => exact ih (List.nodup_cons.2 ⟨(dropWhile_contains_eq_cons hx).1, h⟩)

/-- **The walk is sound:** everything it lists was seen before or is reached from the queue. -/
theorem reachFrom_sound (fuel : Nat) {queue seen : List α} {y : α}
    (hy : y ∈ reachFrom step fuel queue seen) : y ∈ seen ∨ ∃ q ∈ queue, Reaches step q y := by
  induction fuel generalizing queue seen with
  | zero => exact .inl (by simpa [reachFrom] using hy)
  | succ fuel ih =>
    rw [reachFrom] at hy
    split at hy
    · exact .inl (List.mem_reverse.1 hy)
    · next x rest hx =>
      obtain ⟨-, pre, rfl, -⟩ := dropWhile_contains_eq_cons hx
      rcases ih hy with hy | ⟨q, hq, hqy⟩
      · rcases List.mem_cons.1 hy with rfl | hy
        · exact .inr ⟨y, by simp, .refl⟩
        · exact .inl hy
      · rcases List.mem_append.1 hq with hq | hq
        · exact .inr ⟨q, by simp [hq], hqy⟩
        · exact .inr ⟨x, by simp, Relation.ReflTransGen.head hq hqy⟩

/-- **The walk is closed.** On a finite set `U` that the steps never leave and that holds what was
seen and what is queued, with fuel for the rest of `U`: every queued element is listed, and the
list is closed under steps. The invariant is that the steps of every seen element are seen or
queued. -/
theorem reachFrom_closed {U : Finset α} (hU : ∀ x ∈ U, ∀ y ∈ step x, y ∈ U) (fuel : Nat)
    {queue seen : List α} (hseen : ∀ x ∈ seen, x ∈ U) (hqueue : ∀ x ∈ queue, x ∈ U)
    (hnd : seen.Nodup) (hstep : ∀ x ∈ seen, ∀ y ∈ step x, y ∈ seen ∨ y ∈ queue)
    (hfuel : U.card ≤ fuel + seen.length) :
    (∀ q ∈ queue, q ∈ reachFrom step fuel queue seen) ∧
      ∀ x ∈ reachFrom step fuel queue seen, ∀ y ∈ step x, y ∈ reachFrom step fuel queue seen := by
  induction fuel generalizing queue seen with
  | zero =>
    -- out of fuel, the walk has seen all of `U`
    have hall : ∀ x ∈ U, x ∈ seen := fun x hx => mem_of_card_le_length hseen hnd (by omega) hx
    simp only [reachFrom, List.mem_reverse]
    exact ⟨fun q hq => hall q (hqueue q hq), fun x hx y hy => hall y (hU x (hseen x hx) y hy)⟩
  | succ fuel ih =>
    rw [reachFrom]
    split
    · next hnil =>
      have hall : ∀ q ∈ queue, q ∈ seen := fun q hq => by
        simpa using List.dropWhile_eq_nil_iff.1 hnil q hq
      simp only [List.mem_reverse]
      refine ⟨hall, fun x hx y hy => ?_⟩
      rcases hstep x hx y hy with hy | hy
      · exact hy
      · exact hall y hy
    · next x rest hx =>
      obtain ⟨hxs, pre, rfl, hpre⟩ := dropWhile_contains_eq_cons hx
      have hxU : x ∈ U := hqueue x (by simp)
      obtain ⟨hqueued, hcl⟩ := @ih (rest ++ step x) (x :: seen)
        (fun y hy => by
          rcases List.mem_cons.1 hy with rfl | hy
          · exact hxU
          · exact hseen y hy)
        (fun y hy => by
          rcases List.mem_append.1 hy with hy | hy
          · exact hqueue y (by simp [hy])
          · exact hU x hxU y hy)
        (List.nodup_cons.2 ⟨hxs, hnd⟩)
        (fun z hz y hy => by
          rcases List.mem_cons.1 hz with rfl | hz
          · exact .inr (List.mem_append_right _ hy)
          · rcases hstep z hz y hy with hy | hy
            · exact .inl (List.mem_cons_of_mem _ hy)
            · rcases List.mem_append.1 hy with hy | hy
              · exact .inl (List.mem_cons_of_mem _ (hpre y hy))
              · rcases List.mem_cons.1 hy with rfl | hy
                · exact .inl List.mem_cons_self
                · exact .inr (List.mem_append_left _ hy))
        (by simp only [List.length_cons]; omega)
      refine ⟨fun q hq => ?_, hcl⟩
      rcases List.mem_append.1 hq with hq | hq
      · exact mem_reachFrom_of_mem_seen fuel _ (List.mem_cons_of_mem _ (hpre q hq))
      · rcases List.mem_cons.1 hq with rfl | hq
        · exact mem_reachFrom_of_mem_seen fuel _ List.mem_cons_self
        · exact hqueued q (List.mem_append_left _ hq)

/-- **The walk lists exactly what the start reaches**, when the steps never leave a finite set
that holds the start and the fuel covers that set. -/
theorem mem_reachFrom_iff {U : Finset α} (hU : ∀ x ∈ U, ∀ y ∈ step x, y ∈ U) {start : α}
    (hstart : start ∈ U) {fuel : Nat} (hfuel : U.card ≤ fuel) {y : α} :
    y ∈ reachFrom step fuel [start] [] ↔ Reaches step start y := by
  obtain ⟨hqueued, hcl⟩ := @reachFrom_closed _ step _ U hU fuel [start] [] (by simp)
    (by simpa using hstart) .nil (by simp) (by simpa using hfuel)
  constructor
  · intro hy
    simpa using reachFrom_sound fuel hy
  · intro hy
    induction hy with
    | refl => exact hqueued start List.mem_cons_self
    | tail _ hbc ih => exact hcl _ ih _ hbc

/-- The walk starts with its start. -/
theorem head?_reachFrom (fuel : Nat) (start : α) (queue : List α) :
    (reachFrom step (fuel + 1) (start :: queue) []).head? = some start := by
  rw [reachFrom]
  obtain ⟨l, hl⟩ := @reachFrom_eq_append _ step _ fuel (queue ++ step start) [start]
  simp [hl]

end Walk

/-! ### Well-formed binding tables -/

namespace Bindings

variable (b : Bindings)

/-- A **well-formed** table has the shape of every table built by adding entries one after
another: the well-known types keep the names and kinds that a new table gives them and are no
instantiations, every superclass and interface of an entry is an entry, and an instantiation comes
after its generic declaration and is of its kind. -/
structure WellFormed : Prop where
  wellKnown : ∀ i < empty.types.size, (b.ty ⟨i⟩).name = (empty.ty ⟨i⟩).name ∧
    (b.ty ⟨i⟩).kind = (empty.ty ⟨i⟩).kind ∧ (b.ty ⟨i⟩).declaration = none
  supertypes_lt : ∀ i < b.types.size, ∀ s ∈ b.supertypes ⟨i⟩, s.idx < b.types.size
  declaration_lt : ∀ i < b.types.size, ∀ d ∈ (b.ty ⟨i⟩).declaration,
    d.idx < i ∧ (b.ty ⟨i⟩).kind = (b.ty d).kind

instance : DecidablePred WellFormed := fun _ =>
  decidable_of_iff (_ ∧ _ ∧ _)
    ⟨fun h => ⟨h.1, h.2.1, h.2.2⟩, fun h => ⟨h.wellKnown, h.supertypes_lt, h.declaration_lt⟩⟩

/-- A type beyond the table reads as the default entry. -/
theorem ty_of_size_le {t : TypeId} (ht : b.types.size ≤ t.idx) : b.ty t = default := by
  simp [ty, ht]

theorem lt_of_declaration_eq_some {t d : TypeId} (h : (b.ty t).declaration = some d) :
    t.idx < b.types.size := by
  by_contra hle
  rw [b.ty_of_size_le (Nat.le_of_not_lt hle)] at h
  cases h

theorem lt_of_mem_supertypes {t s : TypeId} (h : s ∈ b.supertypes t) : t.idx < b.types.size := by
  by_contra hle
  rw [supertypes, b.ty_of_size_le (Nat.le_of_not_lt hle)] at h
  cases h

namespace WellFormed

variable {b} (hwf : b.WellFormed)
include hwf

theorem supertype_lt {t s : TypeId} (h : s ∈ b.supertypes t) : s.idx < b.types.size :=
  hwf.supertypes_lt t.idx (b.lt_of_mem_supertypes h) s h

theorem declaration_idx_lt {t d : TypeId} (h : (b.ty t).declaration = some d) : d.idx < t.idx :=
  (hwf.declaration_lt t.idx (b.lt_of_declaration_eq_some h) d h).1

theorem kind_eq_of_declaration {t d : TypeId} (h : (b.ty t).declaration = some d) :
    (b.ty t).kind = (b.ty d).kind :=
  (hwf.declaration_lt t.idx (b.lt_of_declaration_eq_some h) d h).2

/-- Erasure stays inside the table. -/
theorem erase_lt {t : TypeId} (ht : t.idx < b.types.size) : (b.erase t).idx < b.types.size := by
  unfold erase
  cases hd : (b.ty t).declaration with
  | none => exact ht
  | some d => exact Nat.lt_trans (hwf.declaration_idx_lt hd) ht

/-- Every step of the sub-typing walk goes to a type of the table. -/
theorem subtypeStep_lt (c : Bool) (x : TypeId) : ∀ y ∈ b.subtypeStep c x, y.idx < b.types.size := by
  intro y hy
  simp only [subtypeStep, List.mem_map, List.mem_append] at hy
  obtain ⟨z, hz, rfl⟩ := hy
  -- the step names a supertype of the type or, when inherited, of its generic declaration
  have hzlt : z.idx < b.types.size := by
    rcases hz with hz | hz
    · exact hwf.supertype_lt hz
    · split at hz
      · split at hz
        · exact hwf.supertype_lt hz
        · cases hz
      · cases hz
  cases c
  · exact hwf.erase_lt hzlt
  · exact hzlt

theorem declaration_object : (b.ty object).declaration = none :=
  (hwf.wellKnown 0 (by decide)).2.2

theorem isReference_object : b.isReference object = true := by
  have hk : (b.ty object).kind = .classType := (hwf.wellKnown 0 (by decide)).2.1
  simp [isReference, hk]

theorem normalize_object (c : Bool) : b.normalize c object = object := by
  cases c <;> simp [normalize, erase, hwf.declaration_object]

/-- A table where `Object` names no supertype gives the walk no step out of `Object`. -/
theorem subtypeStep_object (hobj : b.supertypes object = []) (c : Bool) :
    b.subtypeStep c object = [] := by
  simp [subtypeStep, hobj, hwf.declaration_object]

end WellFormed

/-! ### The walks of a table -/

/-- **A walk of a well-formed table lists exactly what its start reaches**, when every step goes
to a type of the table: the table's types and the start are at most one more than the fuel. -/
theorem mem_reachable_iff {step : TypeId → List TypeId}
    (hstep : ∀ x, ∀ y ∈ step x, y.idx < b.types.size) {start y : TypeId} :
    y ∈ b.reachable step start ↔ Reaches step start y := by
  let U : Finset TypeId := insert start ((Finset.range b.types.size).image TypeId.mk)
  have hU : ∀ x ∈ U, ∀ y ∈ step x, y ∈ U := fun x _ y hy =>
    Finset.mem_insert_of_mem (Finset.mem_image.2 ⟨y.idx, Finset.mem_range.2 (hstep x y hy), rfl⟩)
  have hcard : U.card ≤ b.types.size + 1 := calc
    U.card ≤ ((Finset.range b.types.size).image TypeId.mk).card + 1 := Finset.card_insert_le _ _
    _ ≤ (Finset.range b.types.size).card + 1 := Nat.add_le_add_right Finset.card_image_le 1
    _ = b.types.size + 1 := by rw [Finset.card_range]
  exact mem_reachFrom_iff hU (Finset.mem_insert_self _ _) hcard

theorem nodup_reachable (step : TypeId → List TypeId) (start : TypeId) :
    (b.reachable step start).Nodup :=
  nodup_reachFrom _ List.nodup_nil

theorem head?_reachable (step : TypeId → List TypeId) (start : TypeId) :
    (b.reachable step start).head? = some start :=
  head?_reachFrom _ start []

theorem mem_reachable_self (step : TypeId → List TypeId) (start : TypeId) :
    start ∈ b.reachable step start :=
  List.mem_of_mem_head? (b.head?_reachable step start)

/-! ### Sub-typing -/

variable {b}

/-- Between reference types, sub-typing asks whether the walk from the subtype meets the
supertype, and otherwise whether the supertype is `Object`. -/
theorem isSubtype_of_isReference {s t : TypeId} (hs : b.isReference s = true)
    (ht : b.isReference t = true) (c : Bool) :
    b.isSubtype s t c = ((b.reachable (b.subtypeStep c) (b.normalize c t)).contains
      (b.normalize c s) || b.normalize c s == object) := by
  simp [isSubtype, hs, ht]

/-- **Sub-typing is reachability.** In a well-formed table, a reference type is a subtype of
another exactly when the walk from the first reaches the second, both normalized, or the second
normalizes to `Object`. -/
theorem isSubtype_iff_reaches (hwf : b.WellFormed) {s t : TypeId} (hs : b.isReference s = true)
    (ht : b.isReference t = true) (c : Bool) :
    b.isSubtype s t c = true ↔
      Reaches (b.subtypeStep c) (b.normalize c t) (b.normalize c s) ∨ b.normalize c s = object := by
  rw [isSubtype_of_isReference hs ht c]
  simp [b.mem_reachable_iff (hwf.subtypeStep_lt c)]

theorem isSubtype_self {t : TypeId} (ht : b.isReference t = true) (c : Bool) :
    b.isSubtype t t c = true := by
  rw [isSubtype_of_isReference ht ht c]
  simp [b.mem_reachable_self]

theorem isSubtype_object (hwf : b.WellFormed) {t : TypeId} (ht : b.isReference t = true)
    (c : Bool) : b.isSubtype object t c = true :=
  (isSubtype_iff_reaches hwf hwf.isReference_object ht c).2 (.inr (hwf.normalize_object c))

/-- Sub-typing is transitive when `Object` has no supertypes: a chain through a type that is a
subtype of another only because the other normalizes to `Object` ends at `Object`, since the walk
cannot leave `Object`. -/
theorem isSubtype_trans (hwf : b.WellFormed) (hobj : b.supertypes object = []) {s u t : TypeId}
    (hs : b.isReference s = true) (hu : b.isReference u = true) (ht : b.isReference t = true)
    (c : Bool) (hsu : b.isSubtype s u c = true) (hut : b.isSubtype u t c = true) :
    b.isSubtype s t c = true := by
  rw [isSubtype_iff_reaches hwf hs hu] at hsu
  rw [isSubtype_iff_reaches hwf hu ht] at hut
  rw [isSubtype_iff_reaches hwf hs ht]
  rcases hsu with hsu | hsu
  · rcases hut with hut | hut
    · exact .inl (hut.trans hsu)
    · rw [hut] at hsu
      exact .inr (eq_of_reaches_of_step_eq_nil (hwf.subtypeStep_object hobj c) hsu)
  · exact .inr hsu

/-! ### The hierarchy -/

/-- The hierarchy of a type lists exactly the erased types reached from its erasure through
erased supertypes. -/
theorem mem_hierarchy_iff (hwf : b.WellFormed) {t x : TypeId} :
    x ∈ b.hierarchy t ↔ Reaches (fun s => (b.supertypes s).map b.erase) (b.erase t) x := by
  refine b.mem_reachable_iff (fun s y hy => ?_)
  obtain ⟨z, hz, rfl⟩ := List.mem_map.1 hy
  exact hwf.erase_lt (hwf.supertype_lt hz)

theorem nodup_hierarchy (t : TypeId) : (b.hierarchy t).Nodup := b.nodup_reachable _ _

theorem head?_hierarchy (t : TypeId) : (b.hierarchy t).head? = some (b.erase t) :=
  b.head?_reachable _ _

/-- Where no generic declaration is itself an instantiation, an erased type is no instantiation. -/
theorem declaration_erase (hflat : ∀ t d, (b.ty t).declaration = some d → (b.ty d).declaration = none)
    (t : TypeId) : (b.ty (b.erase t)).declaration = none := by
  unfold erase
  cases hd : (b.ty t).declaration with
  | none => exact hd
  | some d => exact hflat t d hd

/-- Without type arguments, the walk from a type that is no instantiation steps to its erased
supertypes and inherits nothing. -/
theorem subtypeStep_false_of_declaration {x : TypeId} (hx : (b.ty x).declaration = none) :
    b.subtypeStep false x = (b.supertypes x).map b.erase := by
  simp [subtypeStep, hx, normalize]

/-- **Sub-typing without type arguments is membership in the hierarchy**, where no generic
declaration is itself an instantiation: the walk of `isSubtype` then meets only erased types,
which inherit nothing, so it steps as the walk of `hierarchy` does. -/
theorem isSubtype_false_iff (hwf : b.WellFormed)
    (hflat : ∀ t d, (b.ty t).declaration = some d → (b.ty d).declaration = none) {s t : TypeId}
    (hs : b.isReference s = true) (ht : b.isReference t = true) :
    b.isSubtype s t false = true ↔ b.erase s = object ∨ b.erase s ∈ b.hierarchy t := by
  have hwalk : Reaches (b.subtypeStep false) (b.erase t) (b.erase s) ↔
      Reaches (fun s => (b.supertypes s).map b.erase) (b.erase t) (b.erase s) := by
    refine reaches_congr (P := fun x => (b.ty x).declaration = none) (fun x y _ hy => ?_)
      (fun x hx => subtypeStep_false_of_declaration hx) (declaration_erase hflat t)
    obtain ⟨z, -, rfl⟩ := List.mem_map.1 hy
    exact declaration_erase hflat z
  rw [isSubtype_iff_reaches hwf hs ht, mem_hierarchy_iff hwf]
  simp only [normalize, Bool.false_eq_true, if_false, hwalk]
  exact Or.comm

/-- **Sub-typing is a preorder with `Object` on top, computed by a walk that always finishes.**
In a well-formed table where `Object` names no supertype, and for either flag: between reference
types, sub-typing holds exactly when the walk from the subtype reaches the supertype or the
supertype normalizes to `Object`, whatever cycles the hierarchy has; it is reflexive and
transitive; `Object` is a supertype of every reference type; the hierarchy of a type lists its
erasure first and then each erased type reachable from it once; and, where no generic declaration
is itself an instantiation, sub-typing without type arguments holds exactly when the erasure of
the supertype is `Object` or lies in the hierarchy of the subtype. -/
theorem isSubtype_preorder (b : Bindings) (hwf : b.WellFormed) (hobj : b.supertypes object = [])
    (c : Bool) :
    (∀ s t, b.isReference s = true → b.isReference t = true →
      (b.isSubtype s t c = true ↔
        Reaches (b.subtypeStep c) (b.normalize c t) (b.normalize c s) ∨
          b.normalize c s = object)) ∧
    (∀ t, b.isReference t = true → b.isSubtype t t c = true) ∧
    (∀ s u t, b.isReference s = true → b.isReference u = true → b.isReference t = true →
      b.isSubtype s u c = true → b.isSubtype u t c = true → b.isSubtype s t c = true) ∧
    (∀ t, b.isReference t = true → b.isSubtype object t c = true) ∧
    (∀ t, (b.hierarchy t).head? = some (b.erase t) ∧ (b.hierarchy t).Nodup ∧
      ∀ x, x ∈ b.hierarchy t ↔ Reaches (fun s => (b.supertypes s).map b.erase) (b.erase t) x) ∧
    ((∀ t d, (b.ty t).declaration = some d → (b.ty d).declaration = none) →
      ∀ s t, b.isReference s = true → b.isReference t = true →
        (b.isSubtype s t false = true ↔ b.erase s = object ∨ b.erase s ∈ b.hierarchy t)) :=
  ⟨fun _ _ hs ht => isSubtype_iff_reaches hwf hs ht c,
    fun _ ht => isSubtype_self ht c,
    fun _ _ _ hs hu ht => isSubtype_trans hwf hobj hs hu ht c,
    fun _ ht => isSubtype_object hwf ht c,
    fun _ => ⟨head?_hierarchy _, nodup_hierarchy _, fun _ => mem_hierarchy_iff hwf⟩,
    fun hflat _ _ hs ht => isSubtype_false_iff hwf hflat hs ht⟩

/-- A table whose interfaces `p.I` (type 12) and `p.J` (13) extend each other, with a class `p.C`
(14) implementing `p.I`, a class `p.Box` (15) and its instantiation `Box<String>` (16). -/
def cyclicTable : Bindings :=
  let (b, i) := empty.addType { name := "I", package := some "p", kind := .interfaceType }
  let (b, j) := b.addType { name := "J", package := some "p", kind := .interfaceType }
  let b := b.modifyType i fun t => { t with interfaces := [j] }
  let b := b.modifyType j fun t => { t with interfaces := [i] }
  let (b, _) := b.addType { name := "C", package := some "p", kind := .classType, interfaces := [i] }
  let (b, box) := b.addType { name := "Box", package := some "p", kind := .classType }
  (b.parameterize box [string]).1

/-- The walk goes round the cycle once: each interface is a subtype of the other, and the
hierarchy of `p.C` lists `Object` before the interfaces, breadth first. -/
example : cyclicTable.isSubtype ⟨12⟩ ⟨13⟩ true = true ∧ cyclicTable.isSubtype ⟨13⟩ ⟨12⟩ true = true ∧
    cyclicTable.hierarchy ⟨14⟩ = [⟨14⟩, object, ⟨12⟩, ⟨13⟩] := by
  decide

/-- Sub-typing on the table with the cycle of interfaces, without type arguments. -/
theorem isSubtype_preorder_on_cycle :
    cyclicTable.WellFormed ∧ cyclicTable.supertypes object = [] ∧
    let b := cyclicTable
    let c := false
    (∀ s t, b.isReference s = true → b.isReference t = true →
      (b.isSubtype s t c = true ↔
        Reaches (b.subtypeStep c) (b.normalize c t) (b.normalize c s) ∨
          b.normalize c s = object)) ∧
    (∀ t, b.isReference t = true → b.isSubtype t t c = true) ∧
    (∀ s u t, b.isReference s = true → b.isReference u = true → b.isReference t = true →
      b.isSubtype s u c = true → b.isSubtype u t c = true → b.isSubtype s t c = true) ∧
    (∀ t, b.isReference t = true → b.isSubtype object t c = true) ∧
    (∀ t, (b.hierarchy t).head? = some (b.erase t) ∧ (b.hierarchy t).Nodup ∧
      ∀ x, x ∈ b.hierarchy t ↔ Reaches (fun s => (b.supertypes s).map b.erase) (b.erase t) x) ∧
    ((∀ t d, (b.ty t).declaration = some d → (b.ty d).declaration = none) →
      ∀ s t, b.isReference s = true → b.isReference t = true →
        (b.isSubtype s t false = true ↔ b.erase s = object ∨ b.erase s ∈ b.hierarchy t)) :=
  ⟨by decide, by decide, isSubtype_preorder cyclicTable (by decide) (by decide) false⟩

end Bindings

end QuickFix
