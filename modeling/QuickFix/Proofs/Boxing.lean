import QuickFix.Binding.Assign
import QuickFix.Proofs.Subtyping

/-!
# Boxing and unboxing

`isAssignable` passes a value between a primitive type and a reference type by **boxing** or
**unboxing**. In a well-formed table none of its first checks (equal types, equal erasures, `null`,
`void`) applies between a reference type and one of the eight primitives other than `void`, so
the boxing or the unboxing branch alone decides:

* a primitive is assignable to a reference type exactly when that type is `Object` or its erasure
  has the simple name of the primitive's box class (`isAssignable_boxing`), in any package;
* a reference type is assignable to a primitive exactly when its erasure has the name of the box
  class of a primitive that is the target or widens to it, and it is declared in `java.lang`
  (`isAssignable_unboxing`).

Main statement (`isAssignable_box_classes`): boxing reaches `Object` and the `java.lang` box class
of the primitive, and no type that is neither `Object` nor named as that box class, so no other
supertype of the box class; unboxing is as above. Boxing into a supertype of the box class other
than `Object` is refused: in a table where `java.lang.Integer` extends `java.lang.Number`, `int`
is not assignable to `Number` (`boxing_refuses_supertype_of_box`).
-/

namespace QuickFix.Bindings

/-! ### The eight boxed primitives -/

/-- Each boxed primitive is a well-known type of the table, below `void`, named and typed as a new
table has it. -/
theorem primitive?_of_mem_boxes {prim box : String} (hbox : (prim, box) ∈ boxes) {p : TypeId}
    (hp : primitive? prim = some p) :
    p.idx < void.idx ∧ (empty.ty p).name = prim ∧ (empty.ty p).kind = .primitive := by
  simp only [boxes, List.mem_cons, Prod.mk.injEq, List.not_mem_nil, or_false] at hbox
  rcases hbox with ⟨rfl, rfl⟩ | ⟨rfl, rfl⟩ | ⟨rfl, rfl⟩ | ⟨rfl, rfl⟩ | ⟨rfl, rfl⟩ | ⟨rfl, rfl⟩ |
      ⟨rfl, rfl⟩ | ⟨rfl, rfl⟩ <;>
    · cases hp
      decide

theorem isSome_primitive?_of_mem_boxes {prim box : String} (hbox : (prim, box) ∈ boxes) :
    (primitive? prim).isSome = true := by
  have hall : ∀ x ∈ boxes, (primitive? x.1).isSome = true := by decide
  exact hall _ hbox

/-- Every primitive has one box class. -/
theorem lookup_boxes_of_mem {prim box : String} (hbox : (prim, box) ∈ boxes) :
    boxes.lookup prim = some box := by
  have hall : ∀ x ∈ boxes, boxes.lookup x.1 = some x.2 := by decide
  exact hall _ hbox

namespace WellFormed

variable {b : Bindings} (hwf : b.WellFormed)
include hwf

/-- A boxed primitive keeps its name and kind in a well-formed table, and is no instantiation. -/
theorem ty_boxed {prim box : String} (hbox : (prim, box) ∈ boxes) {p : TypeId}
    (hp : primitive? prim = some p) :
    (b.ty p).name = prim ∧ (b.ty p).kind = .primitive ∧ (b.ty p).declaration = none := by
  obtain ⟨hlt, hname, hkind⟩ := primitive?_of_mem_boxes hbox hp
  obtain ⟨hn, hk, hd⟩ := hwf.wellKnown p.idx (Nat.lt_trans hlt (by decide))
  exact ⟨hn.trans hname, hk.trans hkind, hd⟩

theorem isReference_null : b.isReference null = false := by
  have hk : (b.ty null).kind = .nullType := (hwf.wellKnown 11 (by decide)).2.1
  simp [isReference, hk]

theorem isReference_void : b.isReference void = false := by
  have hk : (b.ty void).kind = .primitive := (hwf.wellKnown 10 (by decide)).2.1
  simp [isReference, hk]

/-- The erasure of a reference type is a reference type: an instantiation has the kind of its
generic declaration. -/
theorem isReference_erase {t : TypeId} (ht : b.isReference t = true) :
    b.isReference (b.erase t) = true := by
  unfold erase
  cases hd : (b.ty t).declaration with
  | none => exact ht
  | some d =>
    simp only [Option.getD_some]
    simpa [isReference, hwf.kind_eq_of_declaration hd] using ht

end WellFormed

theorem isPrimitive_eq_false {b : Bindings} {t : TypeId} (ht : b.isReference t = true) :
    b.isPrimitive t = false := by
  simp only [isReference, Bool.not_eq_eq_eq_not, Bool.not_true, Bool.or_eq_false_iff] at ht
  simp [isPrimitive, ht.1]

/-! ### Between a reference type and a boxed primitive -/

section Boxed

variable {b : Bindings} (hwf : b.WellFormed) {prim box : String} (hbox : (prim, box) ∈ boxes)
  {p : TypeId} (hp : primitive? prim = some p) {r : TypeId} (hr : b.isReference r = true)
include hwf hbox hp hr

/-- A reference type and a boxed primitive are different types with different erasures, and
neither is `null` or `void`. -/
theorem first_checks_fail :
    (p == r || b.erase p == b.erase r) = false ∧ (r == p || b.erase r == b.erase p) = false ∧
      (p == null) = false ∧ (r == null) = false ∧ (p == void || r == void) = false ∧
      (r == void || p == void) = false := by
  obtain ⟨-, hkind, hdecl⟩ := hwf.ty_boxed hbox hp
  have hlt := (primitive?_of_mem_boxes hbox hp).1
  have hprim : b.isReference p = false := by simp [isReference, hkind]
  have herase : b.erase p = p := by simp [erase, hdecl]
  -- a reference type is neither the primitive nor its erasure, `null` nor `void`
  have hne : r ≠ p := fun h => by rw [h, hprim] at hr; cases hr
  have hne' : b.erase r ≠ p := fun h => by
    have := hwf.isReference_erase hr
    rw [h, hprim] at this
    cases this
  have hnull : r ≠ null := fun h => by rw [h, hwf.isReference_null] at hr; cases hr
  have hvoid : r ≠ void := fun h => by rw [h, hwf.isReference_void] at hr; cases hr
  have hpnull : p ≠ null := fun h => by
    rw [h] at hlt
    exact absurd hlt (by decide)
  have hpvoid : p ≠ void := fun h => by
    rw [h] at hlt
    exact absurd hlt (by decide)
  simp [herase, hne, Ne.symm hne, hne', Ne.symm hne', hnull, hvoid, hpnull, hpvoid]

/-- **Boxing:** a boxed primitive is assignable to a reference type exactly when that type is
`Object` or its erasure has the name of the primitive's box class, in whatever package. -/
theorem isAssignable_boxing :
    b.isAssignable p r = true ↔ r = object ∨ (b.ty (b.erase r)).name = box := by
  obtain ⟨h₁, -, h₃, -, h₅, -⟩ := first_checks_fail hwf hbox hp hr
  obtain ⟨hname, hkind, -⟩ := hwf.ty_boxed hbox hp
  have hprim : b.isPrimitive p = true := by simp [isPrimitive, hkind]
  unfold isAssignable
  simp only [h₁, h₃, h₅, hprim, isPrimitive_eq_false hr, hname, lookup_boxes_of_mem hbox,
    Bool.false_eq_true, if_false, Bool.or_eq_true, beq_iff_eq]
  exact Or.comm

/-- **Unboxing:** a reference type is assignable to a boxed primitive exactly when it is declared in
`java.lang` and its erasure has the name of the box class of a primitive that is the target or
widens to it. -/
theorem isAssignable_unboxing :
    b.isAssignable r p = true ↔ b.packageOf r = some "java.lang" ∧
      ∃ q qbox, (q, qbox) ∈ boxes ∧ (b.ty (b.erase r)).name = qbox ∧
        (q = prim ∨ widens q prim = true) := by
  obtain ⟨-, h₂, -, h₄, -, h₆⟩ := first_checks_fail hwf hbox hp hr
  obtain ⟨hname, hkind, -⟩ := hwf.ty_boxed hbox hp
  have hprim : b.isPrimitive p = true := by simp [isPrimitive, hkind]
  unfold isAssignable
  simp only [h₂, h₄, h₆, hprim, isPrimitive_eq_false hr, Bool.false_eq_true, if_false,
    Bool.and_eq_true, beq_iff_eq, List.any_eq_true]
  refine and_congr_right fun _ => ⟨fun h => ?_, fun h => ?_⟩
  · -- the box class found names a primitive of the table, the target or one that widens to it
    obtain ⟨⟨q, qbox⟩, hq, hmatch⟩ := h
    obtain ⟨p', hp'⟩ := Option.isSome_iff_exists.1 (isSome_primitive?_of_mem_boxes hq)
    obtain ⟨hn', -, -⟩ := hwf.ty_boxed hq hp'
    simp only [hp', beq_iff_eq, Bool.or_eq_true, hn', hname] at hmatch
    refine ⟨q, qbox, hq, hmatch.1, ?_⟩
    rcases hmatch.2 with heq | hw
    · subst heq
      exact .inl ((hwf.ty_boxed hq hp').1.symm.trans hname)
    · exact .inr hw
  · obtain ⟨q, qbox, hq, hn, hw⟩ := h
    obtain ⟨p', hp'⟩ := Option.isSome_iff_exists.1 (isSome_primitive?_of_mem_boxes hq)
    obtain ⟨hn', -, -⟩ := hwf.ty_boxed hq hp'
    refine ⟨⟨q, qbox⟩, hq, ?_⟩
    simp only [hp', beq_iff_eq, Bool.or_eq_true, hn', hname]
    refine ⟨hn, ?_⟩
    rcases hw with rfl | hw
    · exact .inr (by simp [widens])
    · exact .inr hw

end Boxed

/-- **Boxing reaches `Object` and the box class; unboxing takes the box classes of `java.lang`.**
In a well-formed table, for each primitive other than `void` with its box class, and every
reference type `r`: the primitive is assignable to `r` when `r` is `Object` or the erasure of `r`
is the box class, declared in `java.lang`; it is not assignable to `r` when `r` is not `Object` and
its erasure is not named as the box class, so to no other supertype of the box class; and `r` is
assignable to the primitive exactly when `r` is declared in `java.lang` and its erasure is named
as the box class of a primitive that is the target or widens to it. -/
theorem isAssignable_box_classes (b : Bindings) (hwf : b.WellFormed) (prim box : String)
    (hbox : (prim, box) ∈ boxes) (p : TypeId) (hp : primitive? prim = some p) (r : TypeId)
    (hr : b.isReference r = true) :
    (r = object ∨ (b.ty (b.erase r)).name = box ∧ b.packageOf r = some "java.lang" →
      b.isAssignable p r = true) ∧
    (r ≠ object → (b.ty (b.erase r)).name ≠ box → b.isAssignable p r = false) ∧
    (b.isAssignable r p = true ↔ b.packageOf r = some "java.lang" ∧
      ∃ q qbox, (q, qbox) ∈ boxes ∧ (b.ty (b.erase r)).name = qbox ∧
        (q = prim ∨ widens q prim = true)) := by
  have hboxing := isAssignable_boxing hwf hbox hp hr
  refine ⟨fun h => hboxing.2 (h.imp_right fun h => h.1), fun hobj hname => ?_,
    isAssignable_unboxing hwf hbox hp hr⟩
  rw [← Bool.not_eq_true, hboxing]
  exact fun h => h.elim hobj hname

/-- A table where the class `java.lang.Integer` (type 13) extends the class `java.lang.Number`
(type 12). -/
def numberTable : Bindings :=
  let (b, number) := empty.addType
    { name := "Number", package := some "java.lang", kind := .classType }
  let (b, integer) := b.addType
    { name := "Integer", package := some "java.lang", kind := .classType }
  b.modifyType integer fun t => { t with superclass := some number }

/-- Boxing and unboxing on the table of `java.lang.Number` and `java.lang.Integer`, for `int`
and the box class. -/
theorem isAssignable_box_classes_for_int :
    numberTable.WellFormed ∧ ("int", "Integer") ∈ boxes ∧ primitive? "int" = some int ∧
    numberTable.isReference ⟨13⟩ = true ∧
    let b := numberTable
    let r : TypeId := ⟨13⟩
    (r = object ∨ (b.ty (b.erase r)).name = "Integer" ∧ b.packageOf r = some "java.lang" →
      b.isAssignable int r = true) ∧
    (r ≠ object → (b.ty (b.erase r)).name ≠ "Integer" → b.isAssignable int r = false) ∧
    (b.isAssignable r int = true ↔ b.packageOf r = some "java.lang" ∧
      ∃ q qbox, (q, qbox) ∈ boxes ∧ (b.ty (b.erase r)).name = qbox ∧
        (q = "int" ∨ widens q "int" = true)) :=
  ⟨by decide, by decide, by decide, by decide,
    isAssignable_box_classes numberTable (by decide) "int" "Integer" (by decide) int (by decide) ⟨13⟩
      (by decide)⟩

/-- **Boxing does not reach the supertypes of the box class.** In the table where
`java.lang.Integer` extends `java.lang.Number`, `Number` is a supertype of the box class of `int`
and is not `Object`, and yet `int` is not assignable to it. -/
theorem boxing_refuses_supertype_of_box :
    numberTable.WellFormed ∧ numberTable.isSubtype ⟨12⟩ ⟨13⟩ false = true ∧
      (numberTable.ty ⟨13⟩).name = "Integer" ∧ (numberTable.ty ⟨13⟩).package = some "java.lang" ∧
      (⟨12⟩ : TypeId) ≠ object ∧ numberTable.isAssignable int ⟨12⟩ = false := by
  decide

end QuickFix.Bindings
