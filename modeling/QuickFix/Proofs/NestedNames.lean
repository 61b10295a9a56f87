import QuickFix.Proofs.Subtyping

/-!
# Names of nested types

The four walks outwards that name a type (`qualifiedName`, `binaryName`, `nestedName`,
`topLevel`) are written separately, each reading the entry of the erasure of the type it is at.
They agree:

* the qualified name is the nested name inside the package of the top-level type;
* the binary name is the qualified name of the top-level type followed by the names of the types
  below it on the chain of enclosing types, down to the type itself, each after a `$`;
* all of them read a type only through its erasure.

Two properties of the table carry the agreement: every instantiation names a type as its generic
declaration does (as `parameterize` makes it), and primitive types and the type of `null` are in
no package and enclosed by no type (as a new table makes them). With them the walks agree at every
fuel, stopping at the same type. Where the enclosing links have no cycle, that type is a top-level
one: no chain is longer than the table. No type on the chain may be anonymous, the type itself
included: an anonymous class has the empty qualified name whatever encloses it.

Main statement: `Bindings.names_through_top_level`.
-/

namespace QuickFix

/-- Two entries that name a type alike: the same name, kind, package and enclosing type. -/
structure TypeInfo.NamesAlike (i j : TypeInfo) : Prop where
  name : i.name = j.name
  kind : i.kind = j.kind
  package : i.package = j.package
  enclosing : i.enclosing = j.enclosing

instance (i j : TypeInfo) : Decidable (i.NamesAlike j) :=
  decidable_of_iff
    (i.name = j.name ∧ i.kind = j.kind ∧ i.package = j.package ∧ i.enclosing = j.enclosing)
    ⟨fun ⟨h₁, h₂, h₃, h₄⟩ => ⟨h₁, h₂, h₃, h₄⟩, fun h => ⟨h.name, h.kind, h.package, h.enclosing⟩⟩

theorem TypeInfo.NamesAlike.refl (i : TypeInfo) : i.NamesAlike i := ⟨rfl, rfl, rfl, rfl⟩

theorem TypeInfo.NamesAlike.symm {i j : TypeInfo} (h : i.NamesAlike j) : j.NamesAlike i :=
  ⟨h.name.symm, h.kind.symm, h.package.symm, h.enclosing.symm⟩

/-- A name inside a package, if any: the package, a dot and the name. -/
def inPackage : Option String → String → String
  | some pkg, s => pkg ++ "." ++ s
  | none, s => s

theorem inPackage_append (pkg : Option String) (s u : String) :
    inPackage pkg s ++ u = inPackage pkg (s ++ u) := by
  cases pkg <;> simp [inPackage, String.append_assoc]

namespace Bindings

variable (b : Bindings)

/- Lean makes the equation lemmas of a definition when a proof first unfolds it. They are made here,
once, so that the proofs below, elaborated in parallel, do not each wait for them. -/
section
attribute [local simp] qualifiedNameWithin binaryNameWithin nestedNameWithin topLevelWithin
  enclosingTypesWithin qualifiedName binaryName nestedName topLevel enclosingTypes packageOf erase
  isAnonymous
end

/-! ## Tables whose names are well formed -/

/-- `x` is directly enclosed by `y`. -/
def EnclosedIn (x y : TypeId) : Prop := (b.ty x).enclosing = some y

/-- No type encloses itself through one or more enclosing links. -/
def EnclosingAcyclic : Prop := ∀ t, ¬Relation.TransGen b.EnclosedIn t t

/-- Every instantiation names a type as its generic declaration does. -/
def InstancesAlike : Prop :=
  ∀ i < b.types.size, ∀ g ∈ (b.ty ⟨i⟩).declaration, (b.ty ⟨i⟩).NamesAlike (b.ty g)

/-- Primitive types and the type of `null` are in no package and enclosed by no type. -/
def PrimitivesBare : Prop :=
  ∀ i < b.types.size, (b.ty ⟨i⟩).kind = .primitive ∨ (b.ty ⟨i⟩).kind = .nullType →
    (b.ty ⟨i⟩).package = none ∧ (b.ty ⟨i⟩).enclosing = none

instance : Decidable b.InstancesAlike := by
  unfold InstancesAlike
  infer_instance

instance : Decidable b.PrimitivesBare := by
  unfold PrimitivesBare
  infer_instance

theorem lt_of_enclosing_eq_some {t o : TypeId} (h : (b.ty t).enclosing = some o) :
    t.idx < b.types.size := by
  by_contra hle
  rw [b.ty_of_size_le (Nat.le_of_not_lt hle)] at h
  cases h

/-- Links that always go to an earlier entry make no cycle: along a chain the ids decrease. -/
theorem idx_lt_of_transGen (h : ∀ i < b.types.size, ∀ o ∈ (b.ty ⟨i⟩).enclosing, o.idx < i)
    {x y : TypeId} (hxy : Relation.TransGen b.EnclosedIn x y) : y.idx < x.idx := by
  have hstep : ∀ {u v}, b.EnclosedIn u v → v.idx < u.idx := fun huv =>
    h _ (b.lt_of_enclosing_eq_some huv) _ huv
  induction hxy with
  | single hxy => exact hstep hxy
  | tail _ hyz ih => exact (hstep hyz).trans ih

theorem EnclosingAcyclic.of_lt (h : ∀ i < b.types.size, ∀ o ∈ (b.ty ⟨i⟩).enclosing, o.idx < i) :
    b.EnclosingAcyclic := fun _ ht => Nat.lt_irrefl _ (b.idx_lt_of_transGen h ht)

variable {b}

theorem InstancesAlike.namesAlike (h : b.InstancesAlike) {t g : TypeId}
    (hd : (b.ty t).declaration = some g) : (b.ty t).NamesAlike (b.ty g) :=
  h t.idx (b.lt_of_declaration_eq_some hd) g hd

/-- The erasure of a type names it alike. -/
theorem InstancesAlike.erase (h : b.InstancesAlike) (t : TypeId) :
    (b.ty (b.erase t)).NamesAlike (b.ty t) := by
  unfold Bindings.erase
  cases hd : (b.ty t).declaration with
  | none => exact .refl _
  | some g => exact (h.namesAlike hd).symm

theorem PrimitivesBare.bare (h : b.PrimitivesBare) {t : TypeId}
    (hk : (b.ty t).kind = .primitive ∨ (b.ty t).kind = .nullType) :
    (b.ty t).package = none ∧ (b.ty t).enclosing = none := by
  by_cases ht : t.idx < b.types.size
  · exact h t.idx ht hk
  · -- beyond the table the entry is the default one, a class
    rw [b.ty_of_size_le (Nat.le_of_not_lt ht)] at hk
    rcases hk with hk | hk <;> cases hk

variable (b)

/-! ## One step of each walk -/

section Steps

variable {n : Nat} {t o : TypeId}

theorem topLevelWithin_of_enclosing (h : (b.ty t).enclosing = some o) :
    b.topLevelWithin (n + 1) t = b.topLevelWithin n (b.erase o) := by
  simp [topLevelWithin, h]

theorem topLevelWithin_of_top (h : (b.ty t).enclosing = none) : b.topLevelWithin n t = t := by
  cases n <;> simp [topLevelWithin, h]

theorem enclosingTypesWithin_of_enclosing (h : (b.ty t).enclosing = some o) :
    b.enclosingTypesWithin (n + 1) t = o :: b.enclosingTypesWithin n o := by
  simp [enclosingTypesWithin, h]

theorem enclosingTypesWithin_of_top (h : (b.ty t).enclosing = none) :
    b.enclosingTypesWithin n t = [] := by
  cases n <;> simp [enclosingTypesWithin, h]

theorem qualifiedNameWithin_of_bare
    (hk : (b.ty (b.erase t)).kind = .primitive ∨ (b.ty (b.erase t)).kind = .nullType) :
    b.qualifiedNameWithin n t = (b.ty (b.erase t)).name := by
  rw [qualifiedNameWithin.eq_def]
  rcases hk with hk | hk <;> simp only [hk]

theorem qualifiedNameWithin_of_enclosing (hk : (b.ty (b.erase t)).kind ≠ .anonymousClass)
    (hb : ¬((b.ty (b.erase t)).kind = .primitive ∨ (b.ty (b.erase t)).kind = .nullType))
    (h : (b.ty (b.erase t)).enclosing = some o) :
    b.qualifiedNameWithin (n + 1) t = b.qualifiedNameWithin n o ++ "." ++ (b.ty (b.erase t)).name := by
  rw [qualifiedNameWithin.eq_def]
  dsimp only
  split
  next ha => exact absurd ha hk
  next hp => exact absurd (.inl hp) hb
  next hp => exact absurd (.inr hp) hb
  next => simp only [h]

theorem qualifiedNameWithin_of_top (hk : (b.ty (b.erase t)).kind ≠ .anonymousClass)
    (hb : ¬((b.ty (b.erase t)).kind = .primitive ∨ (b.ty (b.erase t)).kind = .nullType))
    (h : (b.ty (b.erase t)).enclosing = none ∨ n = 0) :
    b.qualifiedNameWithin n t = inPackage (b.ty (b.erase t)).package (b.ty (b.erase t)).name := by
  rw [qualifiedNameWithin.eq_def]
  dsimp only
  split
  next ha => exact absurd ha hk
  next hp => exact absurd (.inl hp) hb
  next hp => exact absurd (.inr hp) hb
  next =>
    rcases h with h | rfl
    · simp only [h]
      cases (b.ty (b.erase t)).package <;> rfl
    · split
      next => omega
      next => cases (b.ty (b.erase t)).package <;> rfl

theorem binaryNameWithin_of_enclosing (h : (b.ty (b.erase t)).enclosing = some o) :
    b.binaryNameWithin (n + 1) t = b.binaryNameWithin n o ++ "$" ++ (b.ty (b.erase t)).name := by
  rw [binaryNameWithin.eq_def]
  simp only [h]

theorem binaryNameWithin_of_top (h : (b.ty (b.erase t)).enclosing = none ∨ n = 0) :
    b.binaryNameWithin n t = b.qualifiedName t := by
  rw [binaryNameWithin.eq_def]
  rcases h with h | rfl
  · simp only [h]
  · split
    simp_all

theorem nestedNameWithin_of_enclosing (hk : (b.ty (b.erase t)).kind ≠ .anonymousClass)
    (h : (b.ty (b.erase t)).enclosing = some o) :
    b.nestedNameWithin (n + 1) t = b.nestedNameWithin n o ++ "." ++ (b.ty (b.erase t)).name := by
  rw [nestedNameWithin.eq_def]
  simp [h, hk]

theorem nestedNameWithin_of_top (h : (b.ty (b.erase t)).enclosing = none ∨ n = 0) :
    b.nestedNameWithin n t = (b.ty (b.erase t)).name := by
  rw [nestedNameWithin.eq_def]
  rcases h with h | rfl
  · simp only [h]
  · split
    simp_all

end Steps

/-! ## Names read only the entry of the erasure -/

section Erasure

variable {n : Nat} {x y : TypeId}

theorem qualifiedNameWithin_congr (h : (b.ty (b.erase x)).NamesAlike (b.ty (b.erase y))) :
    b.qualifiedNameWithin n x = b.qualifiedNameWithin n y := by
  rw [qualifiedNameWithin.eq_def, qualifiedNameWithin.eq_def]
  simp only [h.kind, h.enclosing, h.package, h.name]

theorem nestedNameWithin_congr (h : (b.ty (b.erase x)).NamesAlike (b.ty (b.erase y))) :
    b.nestedNameWithin n x = b.nestedNameWithin n y := by
  rw [nestedNameWithin.eq_def, nestedNameWithin.eq_def]
  simp only [h.kind, h.enclosing, h.name]

theorem binaryNameWithin_congr (h : (b.ty (b.erase x)).NamesAlike (b.ty (b.erase y))) :
    b.binaryNameWithin n x = b.binaryNameWithin n y := by
  have hq : b.qualifiedName x = b.qualifiedName y := b.qualifiedNameWithin_congr h
  rw [binaryNameWithin.eq_def, binaryNameWithin.eq_def]
  simp only [h.enclosing, h.name, hq]

/-- Types of one erasure have the same names, top-level type and package. -/
theorem names_eq_of_erase_eq (h : b.erase x = b.erase y) :
    b.qualifiedName x = b.qualifiedName y ∧ b.binaryName x = b.binaryName y ∧
      b.nestedName x = b.nestedName y ∧ b.topLevel x = b.topLevel y ∧
      b.packageOf x = b.packageOf y := by
  have halike : (b.ty (b.erase x)).NamesAlike (b.ty (b.erase y)) := h ▸ .refl _
  have htop : b.topLevel x = b.topLevel y := by
    unfold topLevel
    rw [h]
  refine ⟨b.qualifiedNameWithin_congr halike, b.binaryNameWithin_congr halike,
    b.nestedNameWithin_congr halike, htop, ?_⟩
  unfold packageOf
  rw [htop]

end Erasure

/-- Where the walk stops, the qualified name is the name the type has inside its package. -/
theorem qualifiedNameWithin_eq_inPackage_of_top {n : Nat} {t : TypeId} (hprim : b.PrimitivesBare)
    (hk : (b.ty (b.erase t)).kind ≠ .anonymousClass)
    (h : (b.ty (b.erase t)).enclosing = none ∨ n = 0) :
    b.qualifiedNameWithin n t =
      inPackage (b.ty (b.topLevelWithin n (b.erase t))).package (b.nestedNameWithin n t) := by
  have htop : b.topLevelWithin n (b.erase t) = b.erase t := by
    rcases h with h | rfl
    · exact b.topLevelWithin_of_top h
    · rfl
  rw [htop, b.nestedNameWithin_of_top h]
  by_cases hb : (b.ty (b.erase t)).kind = .primitive ∨ (b.ty (b.erase t)).kind = .nullType
  · rw [b.qualifiedNameWithin_of_bare hb, (hprim.bare hb).1]
    rfl
  · exact b.qualifiedNameWithin_of_top hk hb h

/-! ## The walks follow the chain of enclosing types

Where every instantiation names a type as its declaration does, the entry of the erasure has the
enclosing type of the entry itself, so each walk visits the types that `enclosingTypesWithin` lists,
at every fuel: the walk that runs out of fuel stops at the last type listed. -/

section Chain

variable {b} (hinst : b.InstancesAlike)
include hinst

theorem topLevelWithin_erase :
    ∀ n t, b.topLevelWithin n (b.erase t) = b.erase ((b.enclosingTypesWithin n t).getLastD t)
  | 0, _ => rfl
  | n + 1, t => by
    have henc := (hinst.erase t).enclosing
    cases h : (b.ty t).enclosing with
    | none =>
      rw [b.topLevelWithin_of_top (henc.trans h), b.enclosingTypesWithin_of_top h]
      rfl
    | some o =>
      rw [b.topLevelWithin_of_enclosing (henc.trans h), b.enclosingTypesWithin_of_enclosing h,
        List.getLastD_cons, topLevelWithin_erase n o]

theorem binaryNameWithin_eq_join :
    ∀ n t, b.binaryNameWithin n t = b.qualifiedName ((b.enclosingTypesWithin n t).getLastD t) ++
      String.join (((t :: b.enclosingTypesWithin n t).dropLast.reverse).map
        fun x => "$" ++ (b.ty x).name)
  | 0, t => by
    rw [b.binaryNameWithin_of_top (.inr rfl)]
    simp [enclosingTypesWithin, String.join_nil]
  | n + 1, t => by
    have halike := hinst.erase t
    cases h : (b.ty t).enclosing with
    | none =>
      rw [b.binaryNameWithin_of_top (.inl (halike.enclosing.trans h)),
        b.enclosingTypesWithin_of_top h]
      simp [String.join_nil]
    | some o =>
      rw [b.binaryNameWithin_of_enclosing (halike.enclosing.trans h),
        b.enclosingTypesWithin_of_enclosing h, binaryNameWithin_eq_join n o, List.getLastD_cons,
        List.dropLast_cons_cons, List.reverse_cons, List.map_append, String.join_append, halike.name]
      simp [String.join_cons, String.join_nil, String.append_assoc]

theorem kind_erase_ne_anonymous {t : TypeId} (h : b.isAnonymous t = false) :
    (b.ty (b.erase t)).kind ≠ .anonymousClass := by
  rw [(hinst.erase t).kind]
  simpa [isAnonymous] using h

/-- Along a chain of named types the qualified name is the nested name inside the package of the
type the walk stops at. -/
theorem qualifiedNameWithin_eq_inPackage (hprim : b.PrimitivesBare) :
    ∀ n t, (∀ x ∈ t :: b.enclosingTypesWithin n t, b.isAnonymous x = false) →
      b.qualifiedNameWithin n t =
        inPackage (b.ty (b.topLevelWithin n (b.erase t))).package (b.nestedNameWithin n t)
  | 0, t, hanon =>
    b.qualifiedNameWithin_eq_inPackage_of_top hprim
      (kind_erase_ne_anonymous hinst (hanon t List.mem_cons_self)) (.inr rfl)
  | n + 1, t, hanon => by
    have hk := kind_erase_ne_anonymous hinst (hanon t List.mem_cons_self)
    have henc := (hinst.erase t).enclosing
    cases h : (b.ty t).enclosing with
    | none => exact b.qualifiedNameWithin_eq_inPackage_of_top hprim hk (.inl (henc.trans h))
    | some o =>
      -- a primitive type encloses nothing, so the type is named and its walk goes on to `o`
      have hb : ¬((b.ty (b.erase t)).kind = .primitive ∨ (b.ty (b.erase t)).kind = .nullType) :=
        fun hb => by simp [(hprim.bare hb).2, h] at henc
      have hrest : ∀ x ∈ o :: b.enclosingTypesWithin n o, b.isAnonymous x = false := fun x hx =>
        hanon x (List.mem_cons_of_mem _ (b.enclosingTypesWithin_of_enclosing h ▸ hx))
      rw [b.qualifiedNameWithin_of_enclosing hk hb (henc.trans h),
        b.nestedNameWithin_of_enclosing hk (henc.trans h), b.topLevelWithin_of_enclosing (henc.trans h),
        qualifiedNameWithin_eq_inPackage hprim n o hrest, inPackage_append, inPackage_append]

end Chain

theorem qualifiedName_erase {b : Bindings} (hinst : b.InstancesAlike) (t : TypeId) :
    b.qualifiedName (b.erase t) = b.qualifiedName t :=
  b.qualifiedNameWithin_congr (hinst.erase (b.erase t))

/-! ## Without cycles the walks reach a top-level type

The types a walk lists are distinct, each enclosing the one before; a walk that has not ended
after as many steps as the table has types would list more entries of the table than it has. -/

section Acyclic

theorem transGen_of_mem_enclosingTypesWithin :
    ∀ {n : Nat} {x y : TypeId}, y ∈ b.enclosingTypesWithin n x → Relation.TransGen b.EnclosedIn x y
  | 0, _, _, hy => by simp [enclosingTypesWithin] at hy
  | n + 1, x, y, hy => by
    cases h : (b.ty x).enclosing with
    | none => simp [b.enclosingTypesWithin_of_top h] at hy
    | some o =>
      rw [b.enclosingTypesWithin_of_enclosing h] at hy
      rcases List.mem_cons.1 hy with rfl | hy
      · exact .single h
      · exact .head h (transGen_of_mem_enclosingTypesWithin hy)

theorem nodup_enclosingTypesWithin (hacyc : b.EnclosingAcyclic) :
    ∀ n t, (t :: b.enclosingTypesWithin n t).Nodup
  | 0, _ => List.nodup_singleton _
  | n + 1, t => by
    refine List.nodup_cons.2 ⟨fun ht => hacyc t (b.transGen_of_mem_enclosingTypesWithin ht), ?_⟩
    cases h : (b.ty t).enclosing with
    | none => simp [b.enclosingTypesWithin_of_top h]
    | some o =>
      rw [b.enclosingTypesWithin_of_enclosing h]
      exact nodup_enclosingTypesWithin hacyc n o

/-- A walk that has not reached a top-level type has listed `n` types, and every type on it is
enclosed by another and so an entry of the table. -/
theorem enclosingTypesWithin_of_getLastD :
    ∀ n t, (b.ty ((b.enclosingTypesWithin n t).getLastD t)).enclosing ≠ none →
      (b.enclosingTypesWithin n t).length = n ∧
        ∀ x ∈ t :: b.enclosingTypesWithin n t, x.idx < b.types.size
  | 0, t, hne => by
    obtain ⟨o, ho⟩ := Option.ne_none_iff_exists'.1 hne
    refine ⟨rfl, fun x hx => ?_⟩
    rw [List.mem_singleton.1 hx]
    exact b.lt_of_enclosing_eq_some ho
  | n + 1, t, hne => by
    cases h : (b.ty t).enclosing with
    | none => simp [b.enclosingTypesWithin_of_top h, h] at hne
    | some o =>
      rw [b.enclosingTypesWithin_of_enclosing h, List.getLastD_cons] at hne
      obtain ⟨hlen, hlt⟩ := enclosingTypesWithin_of_getLastD n o hne
      rw [b.enclosingTypesWithin_of_enclosing h]
      refine ⟨by simp [hlen], fun x hx => ?_⟩
      rcases List.mem_cons.1 hx with rfl | hx
      · exact b.lt_of_enclosing_eq_some h
      · exact hlt x hx

/-- **Without cycles every chain of enclosing types ends at a top-level type.** -/
theorem enclosing_getLastD_eq_none (hacyc : b.EnclosingAcyclic) (t : TypeId) :
    (b.ty ((b.enclosingTypes t).getLastD t)).enclosing = none := by
  by_contra hne
  obtain ⟨hlen, hlt⟩ := b.enclosingTypesWithin_of_getLastD _ t hne
  have hsub : t :: b.enclosingTypes t ⊆ (List.range b.types.size).map TypeId.mk := fun x hx =>
    List.mem_map.2 ⟨x.idx, List.mem_range.2 (hlt x hx), rfl⟩
  have hle := (b.nodup_enclosingTypesWithin hacyc _ t).length_le_of_subset hsub
  simp only [List.length_cons, hlen, List.length_map, List.length_range] at hle
  omega

theorem topLevel_enclosing_eq_none {b : Bindings} (hacyc : b.EnclosingAcyclic)
    (hinst : b.InstancesAlike) (t : TypeId) : (b.ty (b.topLevel t)).enclosing = none := by
  rw [topLevel, topLevelWithin_erase hinst, (hinst.erase _).enclosing]
  exact b.enclosing_getLastD_eq_none hacyc t

end Acyclic

/-! ## The names through the top-level type -/

/-- **The names of a type agree through its top-level type.** In a table without cycles of
enclosing types, where instantiations name types as their declarations do and primitive types stand
alone, a type with no anonymous class on its chain of enclosing types, itself included, has
* a top-level type enclosed by none;
* the qualified name that is its nested name inside the package of its top-level type;
* the binary name that is the qualified name of its top-level type, followed by the names of the
  types below it on the chain, outermost first, each after a `$`;
and it shares all of these with every type of the same erasure. -/
theorem names_through_top_level (hacyc : b.EnclosingAcyclic) (hinst : b.InstancesAlike)
    (hprim : b.PrimitivesBare) (t : TypeId)
    (hanon : ∀ x ∈ t :: b.enclosingTypes t, b.isAnonymous x = false) :
    (b.ty (b.topLevel t)).enclosing = none ∧
    b.qualifiedName t = inPackage (b.packageOf t) (b.nestedName t) ∧
    b.binaryName t = b.qualifiedName (b.topLevel t) ++
      String.join (((t :: b.enclosingTypes t).dropLast.reverse).map fun x => "$" ++ (b.ty x).name) ∧
    ∀ t', b.erase t' = b.erase t →
      b.qualifiedName t' = b.qualifiedName t ∧ b.binaryName t' = b.binaryName t ∧
        b.nestedName t' = b.nestedName t ∧ b.topLevel t' = b.topLevel t ∧
        b.packageOf t' = b.packageOf t := by
  refine ⟨topLevel_enclosing_eq_none hacyc hinst t,
    qualifiedNameWithin_eq_inPackage hinst hprim _ t hanon, ?_, fun _ h => b.names_eq_of_erase_eq h⟩
  rw [binaryName, binaryNameWithin_eq_join hinst, topLevel, topLevelWithin_erase hinst,
    qualifiedName_erase hinst]
  rfl

/-- A class `p.Outer` with a member class `Inner`, and `Inner<String>`. -/
def nestedTable : Bindings :=
  let (b, outer) := empty.addType { name := "Outer", package := some "p", kind := .classType }
  let (b, inner) := b.addType { name := "Inner", kind := .classType, enclosing := some outer }
  (b.parameterize inner [string]).1

theorem names_of_nested_instance :
    let b := nestedTable
    let t : TypeId := ⟨14⟩
    b.EnclosingAcyclic ∧ b.InstancesAlike ∧ b.PrimitivesBare ∧
      (∀ x ∈ t :: b.enclosingTypes t, b.isAnonymous x = false) ∧
      b.qualifiedName t = inPackage (b.packageOf t) (b.nestedName t) := by
  have hacyc : nestedTable.EnclosingAcyclic := EnclosingAcyclic.of_lt _ (by decide)
  have hinst : nestedTable.InstancesAlike := by decide
  have hprim : nestedTable.PrimitivesBare := by decide
  have hanon : ∀ x ∈ ⟨14⟩ :: nestedTable.enclosingTypes ⟨14⟩, nestedTable.isAnonymous x = false := by
    decide
  exact ⟨hacyc, hinst, hprim, hanon,
    (names_through_top_level nestedTable hacyc hinst hprim ⟨14⟩ hanon).2.1⟩

example : nestedTable.qualifiedName ⟨14⟩ = "p.Outer.Inner" ∧
    nestedTable.binaryName ⟨14⟩ = "p.Outer$Inner" ∧ nestedTable.nestedName ⟨14⟩ = "Outer.Inner" := by
  decide +kernel

/-- A class `p.E` with an anonymous class in it. -/
def anonymousTable : Bindings :=
  let (b, e) := empty.addType { name := "E", package := some "p", kind := .classType }
  (b.addType { name := "", kind := .anonymousClass, enclosing := some e }).1

/-- An anonymous class has the empty qualified name even where the types enclosing it are named and
in a package: its nested name is empty and its package is that of the class around it. -/
theorem anonymous_class_outside_its_package :
    let b := anonymousTable
    let t : TypeId := ⟨13⟩
    b.EnclosingAcyclic ∧ (∀ x ∈ b.enclosingTypes t, b.isAnonymous x = false) ∧
      b.qualifiedName t = "" ∧ b.packageOf t = some "p" ∧ b.nestedName t = "" ∧
      b.qualifiedName t ≠ inPackage (b.packageOf t) (b.nestedName t) :=
  ⟨EnclosingAcyclic.of_lt _ (by decide), by decide, by decide +kernel, by decide,
    by decide +kernel, by decide +kernel⟩

/-! ### Neither condition on the table can be dropped

Every table that a setup builds meets both (`Setup.bindings_shaped`); a table that breaks either
one, and nothing else that `names_through_top_level` asks, can have names that disagree. -/

/-- A new table with `int` placed in the package `p`. -/
def primitiveInPackageTable : Bindings :=
  empty.modifyType int fun i => { i with package := some "p" }

/-- A primitive type in a package: `int` keeps its bare qualified name, while its package and its
nested name make `p.int`. -/
theorem primitive_in_package_breaks_names :
    let b := primitiveInPackageTable
    b.EnclosingAcyclic ∧ b.InstancesAlike ∧ ¬b.PrimitivesBare ∧
      (∀ x ∈ int :: b.enclosingTypes int, b.isAnonymous x = false) ∧
      b.qualifiedName int = "int" ∧ inPackage (b.packageOf int) (b.nestedName int) = "p.int" :=
  ⟨EnclosingAcyclic.of_lt _ (by decide), by decide, by decide, by decide, by decide +kernel,
    by decide +kernel⟩

/-- An anonymous class in the package `p`, and an entry that names it as its declaration but
records itself as a class `I`. -/
def classOfAnonymousTable : Bindings :=
  let (b, anon) := empty.addType { name := "", package := some "p", kind := .anonymousClass }
  (b.addType { name := "I", package := some "p", kind := .classType, declaration := some anon }).1

/-- An instantiation that names a type otherwise than its declaration: it is no anonymous class
itself, but its names are read through its erasure, which is one, so its qualified name is empty
while its package and nested name make `p.`. -/
theorem instance_unlike_its_declaration_breaks_names :
    let b := classOfAnonymousTable
    let t : TypeId := ⟨13⟩
    b.EnclosingAcyclic ∧ ¬b.InstancesAlike ∧ b.PrimitivesBare ∧
      (∀ x ∈ t :: b.enclosingTypes t, b.isAnonymous x = false) ∧
      b.qualifiedName t = "" ∧ inPackage (b.packageOf t) (b.nestedName t) = "p." :=
  ⟨EnclosingAcyclic.of_lt _ (by decide), by decide, by decide, by decide, by decide +kernel,
    by decide +kernel⟩

end Bindings

end QuickFix
