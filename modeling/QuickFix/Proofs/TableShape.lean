import QuickFix.Proofs.NestedNames
import QuickFix.Proofs.ParameterNames
import QuickFix.Proofs.SessionRendering

/-!
# The shape of the tables a setup builds

A new binding table holds the well-known types, and a setup adds types, instantiations,
supertypes and source units to it one declaration after another. Every table built so has the
shape that the theorems on sub-typing, boxing, names and parameter names ask of a table: it is
well formed (`Bindings.WellFormed`), its instantiations name types as their generic declarations
do (`Bindings.InstancesAlike`), its primitive types are named and bare (`Bindings.PrimitivesBare`),
and its enclosing links have no cycle; as long as the program declares no primitive type, and no
type of `null`, of its own.

The shape is kept entry by entry (`Bindings.EntryShaped`): a new entry looks back only at older
ones, and a change of an entry keeps all that other entries read of it.

Main statement: `Setup.bindings_shaped`.
-/

namespace QuickFix

theorem TypeInfo.NamesAlike.trans {i j k : TypeInfo} (hij : i.NamesAlike j) (hjk : j.NamesAlike k) :
    i.NamesAlike k :=
  ⟨hij.name.trans hjk.name, hij.kind.trans hjk.kind, hij.package.trans hjk.package,
    hij.enclosing.trans hjk.enclosing⟩

namespace Bindings

variable (b : Bindings)

/-! ### Entries -/

@[simp] theorem ty_push (e : TypeInfo) (t : TypeId) :
    ({ b with types := b.types.push e } : Bindings).ty t =
      if t.idx = b.types.size then e else b.ty t := by
  simp only [ty, Array.getElem?_push]
  split <;> rfl

@[simp] theorem ty_modifyType (t : TypeId) (f : TypeInfo → TypeInfo) (u : TypeId) :
    (b.modifyType t f).ty u = if t.idx = u.idx ∧ u.idx < b.types.size then f (b.ty u) else b.ty u := by
  simp only [modifyType, ty, Array.getElem?_modify]
  by_cases htu : t.idx = u.idx
  · by_cases hu : u.idx < b.types.size
    · simp [htu, hu]
    · simp [htu, hu]
  · simp [htu]

@[simp] theorem size_modifyType (t : TypeId) (f : TypeInfo → TypeInfo) :
    (b.modifyType t f).types.size = b.types.size := by
  simp [modifyType]

/-- What a table built by declarations keeps true of its entry `i`: a well-known type is as a
new table has it; every supertype is an entry; an instantiation comes after its generic
declaration and names a type alike; a primitive type or the type of `null` has a name, no
package and no enclosing type; an enclosing type comes before the types it encloses. -/
structure EntryShaped (i : Nat) : Prop where
  wellKnown : i < empty.types.size → (b.ty ⟨i⟩).name = (empty.ty ⟨i⟩).name ∧
    (b.ty ⟨i⟩).kind = (empty.ty ⟨i⟩).kind ∧ (b.ty ⟨i⟩).declaration = none
  supertypes_lt : ∀ s ∈ b.supertypes ⟨i⟩, s.idx < b.types.size
  declaration : ∀ g ∈ (b.ty ⟨i⟩).declaration, g.idx < i ∧ (b.ty ⟨i⟩).NamesAlike (b.ty g)
  bare : (b.ty ⟨i⟩).kind = .primitive ∨ (b.ty ⟨i⟩).kind = .nullType →
    (b.ty ⟨i⟩).package = none ∧ (b.ty ⟨i⟩).enclosing = none ∧ (b.ty ⟨i⟩).name ≠ ""
  enclosing_lt : ∀ o ∈ (b.ty ⟨i⟩).enclosing, o.idx < i

/-- A table with the shape of the tables that declarations build: the well-known types, then
more entries, each of them shaped. -/
structure Shaped : Prop where
  size : empty.types.size ≤ b.types.size
  entry : ∀ i < b.types.size, b.EntryShaped i

instance (i : Nat) : Decidable (b.EntryShaped i) :=
  decidable_of_iff (_ ∧ _ ∧ _ ∧ _ ∧ _)
    ⟨fun h => ⟨h.1, h.2.1, h.2.2.1, h.2.2.2.1, h.2.2.2.2⟩,
      fun h => ⟨h.wellKnown, h.supertypes_lt, h.declaration, h.bare, h.enclosing_lt⟩⟩

instance : Decidable b.Shaped :=
  decidable_of_iff (_ ∧ _) ⟨fun h => ⟨h.1, h.2⟩, fun h => ⟨h.size, h.entry⟩⟩

/-- A new table is shaped. -/
theorem shaped_empty : empty.Shaped := by decide

variable {b}

namespace Shaped

variable (h : b.Shaped)
include h

theorem wellFormed : b.WellFormed where
  wellKnown i hi := (h.entry i (Nat.lt_of_lt_of_le hi h.size)).wellKnown hi
  supertypes_lt i hi := (h.entry i hi).supertypes_lt
  declaration_lt i hi g hg := by
    obtain ⟨hlt, halike⟩ := (h.entry i hi).declaration g hg
    exact ⟨hlt, halike.kind⟩

theorem instancesAlike : b.InstancesAlike := fun i hi g hg => ((h.entry i hi).declaration g hg).2

theorem primitivesBare : b.PrimitivesBare := fun i hi hk => by
  obtain ⟨hpkg, henc, -⟩ := (h.entry i hi).bare hk
  exact ⟨hpkg, henc⟩

theorem enclosingAcyclic : b.EnclosingAcyclic :=
  EnclosingAcyclic.of_lt b fun i hi => (h.entry i hi).enclosing_lt

/-- Every primitive type has a name: an id beyond the table reads as a class. -/
theorem name_ne_empty_of_isPrimitive {t : TypeId} (ht : b.isPrimitive t = true) :
    (b.ty t).name ≠ "" := by
  by_cases hlt : t.idx < b.types.size
  · exact ((h.entry t.idx hlt).bare (.inl (by simpa [isPrimitive] using ht))).2.2
  · rw [isPrimitive, b.ty_of_size_le (Nat.le_of_not_lt hlt)] at ht
    cases ht

/-- A table that reads as a shaped one, entry for entry, is shaped. -/
theorem congr {b' : Bindings} (hsize : b'.types.size = b.types.size) (hty : ∀ t, b'.ty t = b.ty t) :
    b'.Shaped := by
  have hsup : ∀ t, b'.supertypes t = b.supertypes t := fun t => by simp [supertypes, hty]
  refine ⟨hsize ▸ h.size, fun i hi => ?_⟩
  obtain ⟨hwk, hst, hdecl, hbare, henc⟩ := h.entry i (hsize ▸ hi)
  exact ⟨by simpa [hty] using hwk, by simpa [hsup, hsize] using hst, by simpa [hty] using hdecl,
    by simpa [hty] using hbare, by simpa [hty] using henc⟩

end Shaped

/-! ### Adding an entry -/

/-- An entry that may follow the entries of `b`: it looks back only at them, an instantiation
names a type as its generic declaration does, and a primitive type or the type of `null` is
named and bare. -/
structure Fits (e : TypeInfo) : Prop where
  supertypes_lt : ∀ s ∈ e.superclass.toList ++ e.interfaces, s.idx < b.types.size
  declaration : ∀ g ∈ e.declaration, g.idx < b.types.size ∧ e.NamesAlike (b.ty g)
  bare : e.kind = .primitive ∨ e.kind = .nullType →
    e.package = none ∧ e.enclosing = none ∧ e.name ≠ ""
  enclosing_lt : ∀ o ∈ e.enclosing, o.idx < b.types.size

/-- An entry added after the others keeps the table shaped. -/
theorem Shaped.push (h : b.Shaped) {e : TypeInfo} (he : b.Fits e) :
    ({ b with types := b.types.push e } : Bindings).Shaped := by
  refine ⟨by simpa using Nat.le_succ_of_le h.size, fun i hi => ?_⟩
  rw [Array.size_push] at hi
  rcases Nat.lt_succ_iff_lt_or_eq.1 hi with hi | rfl
  · -- an older entry reads the same entries as before
    have hold : ∀ t : TypeId, t.idx ≤ i →
        ({ b with types := b.types.push e } : Bindings).ty t = b.ty t := fun t ht => by
      simp [Nat.ne_of_lt (Nat.lt_of_le_of_lt ht hi)]
    obtain ⟨hwk, hst, hdecl, hbare, henc⟩ := h.entry i hi
    refine ⟨by simpa [hold ⟨i⟩ le_rfl] using hwk, fun s hs => ?_, fun g hg => ?_,
      by simpa [hold ⟨i⟩ le_rfl] using hbare, by simpa [hold ⟨i⟩ le_rfl] using henc⟩
    · simp only [supertypes, hold ⟨i⟩ le_rfl] at hs
      simpa using Nat.lt_succ_of_lt (hst s hs)
    · rw [hold ⟨i⟩ le_rfl] at hg ⊢
      obtain ⟨hgi, halike⟩ := hdecl g hg
      exact ⟨hgi, by rwa [hold g (Nat.le_of_lt hgi)]⟩
  · -- the new entry is past the well-known types and looks back only
    have hnew : ({ b with types := b.types.push e } : Bindings).ty ⟨b.types.size⟩ = e := by simp
    refine ⟨fun hlt => absurd h.size (Nat.not_le_of_lt hlt), fun s hs => ?_, fun g hg => ?_,
      by simpa [hnew] using he.bare, fun o ho => by simpa using he.enclosing_lt o (by simpa using ho)⟩
    · simp only [supertypes, hnew] at hs
      simpa using Nat.lt_succ_of_lt (he.supertypes_lt s hs)
    · rw [hnew] at hg ⊢
      obtain ⟨hg, halike⟩ := he.declaration g hg
      exact ⟨hg, by simpa [Nat.ne_of_lt hg] using halike⟩

/-- A type added by `addType` keeps the table shaped when it fits. -/
theorem Shaped.addType (h : b.Shaped) {e : TypeInfo} (he : b.Fits e) : (b.addType e).1.Shaped := by
  unfold Bindings.addType
  split
  · -- a class without a superclass extends `Object`
    refine h.push ⟨fun s hs => ?_, fun g hg => ?_, he.bare, he.enclosing_lt⟩
    · rcases List.mem_append.1 hs with hs | hs
      · simp only [Option.toList_some, List.mem_singleton] at hs
        exact hs ▸ Nat.lt_of_lt_of_le (by decide) h.size
      · exact he.supertypes_lt s (List.mem_append_right _ hs)
    · obtain ⟨hlt, halike⟩ := he.declaration g hg
      exact ⟨hlt, halike.name, halike.kind, halike.package, halike.enclosing⟩
  · exact h.push he

/-- An instantiation of an entry keeps the table shaped: it copies the entry. -/
theorem Shaped.parameterize (h : b.Shaped) {g : TypeId} (hg : g.idx < b.types.size)
    (args : List TypeId) : (b.parameterize g args).1.Shaped := by
  obtain ⟨-, hst, -, hbare, henc⟩ := h.entry g.idx hg
  refine h.push ⟨fun s hs => hst s hs, fun g' hg' => ?_, fun hk => hbare hk,
    fun o ho => Nat.lt_trans (henc o ho) hg⟩
  cases hg'
  exact ⟨hg, rfl, rfl, rfl, rfl⟩

/-- A change of entries that keeps how each names a type, and its declaration, keeps the table
shaped as long as supertypes stay in the table. -/
theorem Shaped.of_alike (h : b.Shaped) {b' : Bindings} (hsize : b'.types.size = b.types.size)
    (halike : ∀ t, (b'.ty t).NamesAlike (b.ty t) ∧ (b'.ty t).declaration = (b.ty t).declaration)
    (hsup : ∀ i < b.types.size, ∀ s ∈ b'.supertypes ⟨i⟩, s.idx < b.types.size) : b'.Shaped := by
  refine ⟨hsize ▸ h.size, fun i hi => ?_⟩
  rw [hsize] at hi
  obtain ⟨hwk, -, hdecl, hbare, henc⟩ := h.entry i hi
  obtain ⟨hi', hd'⟩ := halike ⟨i⟩
  refine ⟨fun hlt => ?_, fun s hs => hsize ▸ hsup i hi s hs, fun g hg => ?_, fun hk => ?_,
    fun o ho => henc o (hi'.enclosing ▸ ho)⟩
  · obtain ⟨hn, hk, hd⟩ := hwk hlt
    exact ⟨hi'.name.trans hn, hi'.kind.trans hk, hd'.trans hd⟩
  · rw [hd'] at hg
    obtain ⟨hgi, halk⟩ := hdecl g hg
    exact ⟨hgi, hi'.trans (halk.trans (halike g).1.symm)⟩
  · obtain ⟨hp, he, hn⟩ := hbare (hi'.kind ▸ hk)
    exact ⟨hi'.package.trans hp, hi'.enclosing.trans he, hi'.name ▸ hn⟩

/-- Changing one entry in a way that keeps how it names a type and its declaration keeps the
table shaped, as long as its supertypes stay in the table. -/
theorem Shaped.modifyType (h : b.Shaped) (t : TypeId) {f : TypeInfo → TypeInfo}
    (hf : ∀ e, (f e).NamesAlike e ∧ (f e).declaration = e.declaration)
    (hsup : ∀ s ∈ (f (b.ty t)).superclass.toList ++ (f (b.ty t)).interfaces,
      s.idx < b.types.size) :
    (b.modifyType t f).Shaped := by
  refine h.of_alike (by simp) (fun u => ?_) fun i hi s hs => ?_
  · simp only [ty_modifyType]
    split
    · exact hf _
    · exact ⟨.refl _, rfl⟩
  · have hty := ty_modifyType b t f ⟨i⟩
    simp only [supertypes] at hs
    by_cases hc : t.idx = i ∧ i < b.types.size
    · rw [hty, if_pos hc] at hs
      obtain ⟨rfl, -⟩ := hc
      exact hsup s hs
    · rw [hty, if_neg hc] at hs
      exact (h.entry i hi).supertypes_lt s hs

end Bindings

/-! ### Declarations -/

/-- A declaration that a program makes: the types it declares are classes, interfaces, enums,
annotation types or anonymous classes, never primitive types or the type of `null`. -/
def Declaration.OfProgram : Declaration → Prop
  | .type kind .. => kind ≠ .primitive ∧ kind ≠ .nullType
  | _ => True

namespace Setup

variable {s s' : Setup}

/-- A setup whose table is shaped and whose keys name its entries. -/
structure Shaped (s : Setup) : Prop where
  bindings : s.bindings.Shaped
  keys_lt : ∀ p ∈ s.typeKeys, p.2.idx < s.bindings.types.size

theorem shaped_default : ({} : Setup).Shaped := ⟨Bindings.shaped_empty, fun _ h => by cases h⟩

theorem Shaped.typeKey_lt (h : s.Shaped) {k : String} {t : TypeId} (hk : s.typeKey k = .ok t) :
    t.idx < s.bindings.types.size := by
  unfold typeKey at hk
  split at hk
  · next t' ht' =>
    cases hk
    cases hl : s.typeKeys.lookup k with
    | some u =>
      simp [hl] at ht'
      cases ht'
      exact h.keys_lt _ (List.mem_of_lookup_eq_some hl)
    | none =>
      -- a well-known type's simple name
      simp [hl] at ht'
      have hwk : ∀ p ∈ wellKnownNames, p.2.idx < Bindings.empty.types.size := by decide
      exact Nat.lt_of_lt_of_le (hwk _ (List.mem_of_lookup_eq_some ht')) h.bindings.size
  · cases hk

/-- Registering a type added to a shaped table keeps the setup shaped. -/
theorem Shaped.withType (h : s.Shaped) {b : Bindings} (hb : b.Shaped)
    (hsize : s.bindings.types.size ≤ b.types.size) (key : String) {t : TypeId}
    (ht : t.idx < b.types.size) : (s.withType key (b, t)).Shaped :=
  ⟨hb, fun p hp => by
    rcases List.mem_cons.1 hp with rfl | hp
    · exact ht
    · exact Nat.lt_of_lt_of_le (h.keys_lt p hp) hsize⟩

/-- Methods, parameters and variables leave the types as they are. -/
theorem types_addMethod (key : String) (m : MethodInfo) (params : List (TypeId × String)) :
    (s.addMethod key m params).bindings.types = s.bindings.types := by
  unfold addMethod
  dsimp only
  -- each parameter only adds a variable
  suffices ∀ (ps : List (TypeId × String)) (c : Bindings × List VarId),
      (ps.foldl (fun (acc : Bindings × List VarId) (p : TypeId × String) =>
        ((acc.1.addVar { name := p.2, kind := .parameter, ty := some p.1 }).1,
          acc.2 ++ [(acc.1.addVar { name := p.2, kind := .parameter, ty := some p.1 }).2]))
        c).1.types = c.1.types from this params _
  intro ps
  induction ps with
  | nil => intro c; rfl
  | cons p ps ih => intro c; exact (ih _).trans rfl

theorem Shaped.addMethod (h : s.Shaped) (key : String) (m : MethodInfo)
    (params : List (TypeId × String)) : (s.addMethod key m params).Shaped := by
  have ht := types_addMethod (s := s) key m params
  refine ⟨h.bindings.congr (by rw [ht]) fun t => by simp [Bindings.ty, ht], fun p hp => ?_⟩
  rw [ht]
  exact h.keys_lt p (by unfold Setup.addMethod at hp; exact hp)

/-- A declared type, at the top level or as a member class of another: one new entry of the kind
declared, which is neither primitive nor that of `null`. -/
theorem Shaped.declare_type (h : s.Shaped) {kind name pkg mods outer key}
    (hd : (Declaration.type kind name pkg mods outer key).OfProgram)
    (hs : s.declare (.type kind name pkg mods outer key) = .ok s') : s'.Shaped := by
  obtain ⟨hprim, hnull⟩ := hd
  have hbare : ∀ e : TypeInfo, e.kind = kind → e.kind = .primitive ∨ e.kind = .nullType →
      e.package = none ∧ e.enclosing = none ∧ e.name ≠ "" := by
    rintro e rfl (hk | hk)
    · exact absurd hk hprim
    · exact absurd hk hnull
  cases outer with
  | some o =>
    obtain ⟨ot, hot, hs⟩ := except_bind_eq_ok.1 hs
    cases hs
    -- a member class extending `Object`, then of the kind declared: one new entry of that kind
    have hot := h.typeKey_lt hot
    have hobj : Bindings.object.idx < s.bindings.types.size :=
      Nat.lt_of_lt_of_le (by decide) h.bindings.size
    let e : TypeInfo :=
      { name := name, kind := kind, modifiers := mods.getD {}, enclosing := some ot,
        superclass := some Bindings.object }
    have hfits : s.bindings.Fits e := by
      refine ⟨fun x hx => ?_, fun g hg => (by cases hg), hbare e rfl, fun x hx => ?_⟩
      · simp only [e, Option.toList_some, List.append_nil, List.mem_singleton] at hx
        exact hx ▸ hobj
      · cases hx
        exact hot
    refine h.withType ((h.bindings.push hfits).congr (by simp) fun t => ?_) (by simp) _ (by simp)
    by_cases ht : t.idx = s.bindings.types.size
    · simp [ht, e]
    · simp [ht, Ne.symm ht]
  | none =>
    cases hs
    have hfits : s.bindings.Fits
        { name := name, kind := kind, package := if pkg.isEmpty then none else some pkg,
          modifiers := mods.getD Modifiers.publicOnly } :=
      ⟨fun x hx => (by cases hx), fun g hg => (by cases hg), hbare _ rfl, fun o ho => (by cases ho)⟩
    exact h.withType (h.bindings.addType hfits) (by simp [Bindings.addType]) _
      (by simp [Bindings.addType])

/-- An anonymous class in `outer`, extending or implementing `sup`. -/
theorem Shaped.declare_anonymous (h : s.Shaped) {key outer sup}
    (hs : s.declare (.anonymous key outer sup) = .ok s') : s'.Shaped := by
  obtain ⟨ot, hot, hs⟩ := except_bind_eq_ok.1 hs
  obtain ⟨st, hst, hs⟩ := except_bind_eq_ok.1 hs
  cases hs
  have hot := h.typeKey_lt hot
  have hst := h.typeKey_lt hst
  refine h.withType (h.bindings.addType ⟨fun x hx => ?_, fun g hg => ?_, fun hk => ?_,
    fun o ho => ?_⟩) (by simp [Bindings.addType]) _ (by simp [Bindings.addType])
  · split at hx
    · simp only [List.mem_append, Option.toList_none, List.mem_singleton] at hx
      rcases hx with hx | rfl
      · cases hx
      · exact hst
    · simp only [List.mem_append, Option.toList_some, List.mem_singleton] at hx
      rcases hx with rfl | hx
      · exact hst
      · cases hx
  · split at hg <;> cases hg
  · split at hk <;> simp at hk
  · split at ho <;> (cases ho; exact hot)

/-- A supertype added to a type: only the supertypes of `sub` change, to entries of the table. -/
theorem Shaped.declare_extend (h : s.Shaped) {sub sup}
    (hs : s.declare (.extend sub sup) = .ok s') : s'.Shaped := by
  obtain ⟨a, ha, hs⟩ := except_bind_eq_ok.1 hs
  obtain ⟨c, hc, hs⟩ := except_bind_eq_ok.1 hs
  cases hs
  have hc := h.typeKey_lt hc
  have hold : ∀ x ∈ s.bindings.supertypes a, x.idx < s.bindings.types.size := fun x hx =>
    h.bindings.wellFormed.supertype_lt hx
  refine ⟨h.bindings.modifyType a (fun e => ?_) fun x hx => ?_, fun p hp => ?_⟩
  · split <;> exact ⟨⟨rfl, rfl, rfl, rfl⟩, rfl⟩
  · by_cases hi : s.bindings.isInterface c = true
    · simp only [hi, if_true, List.mem_append, List.mem_singleton] at hx
      rcases hx with hx | hx | rfl
      · exact hold x (List.mem_append_left _ hx)
      · exact hold x (List.mem_append_right _ hx)
      · exact hc
    · simp only [hi, Bool.false_eq_true, if_false, Option.toList_some, List.mem_append,
        List.mem_singleton] at hx
      rcases hx with rfl | hx
      · exact hc
      · exact hold x (List.mem_append_right _ hx)
  · simpa using h.keys_lt p hp

/-- **One declaration keeps the shape.** -/
theorem Shaped.declare (h : s.Shaped) {d : Declaration} (hd : d.OfProgram)
    (hs : s.declare d = .ok s') : s'.Shaped := by
  cases d with
  | type => exact h.declare_type hd hs
  | anonymous => exact h.declare_anonymous hs
  | parameterize generic args key =>
    obtain ⟨g, hg, hs⟩ := except_bind_eq_ok.1 hs
    obtain ⟨as, -, hs⟩ := except_bind_eq_ok.1 hs
    cases hs
    exact h.withType (h.bindings.parameterize (h.typeKey_lt hg) as) (by simp [Bindings.parameterize])
      _ (by simp [Bindings.parameterize])
  | extend => exact h.declare_extend hs
  | field name owner ty mods erasesTo key =>
    obtain ⟨o, -, hs⟩ := except_bind_eq_ok.1 hs
    obtain ⟨t, -, hs⟩ := except_bind_eq_ok.1 hs
    obtain ⟨decl, -, hs⟩ := except_bind_eq_ok.1 hs
    cases hs
    exact ⟨h.bindings.congr rfl fun _ => rfl, h.keys_lt⟩
  | constant name owner key =>
    obtain ⟨o, -, hs⟩ := except_bind_eq_ok.1 hs
    cases hs
    exact ⟨h.bindings.congr rfl fun _ => rfl, h.keys_lt⟩
  | localVar name ty key =>
    obtain ⟨t, -, hs⟩ := except_bind_eq_ok.1 hs
    cases hs
    exact ⟨h.bindings.congr rfl fun _ => rfl, h.keys_lt⟩
  | method name owner params ret mods varargs erasesTo key =>
    obtain ⟨o, -, hs⟩ := except_bind_eq_ok.1 hs
    obtain ⟨ps, -, hs⟩ := except_bind_eq_ok.1 hs
    -- a result type, given or `void`, then only a method is added
    dsimp only at hs
    split at hs
    all_goals
      obtain ⟨r, -, hs⟩ := except_bind_eq_ok.1 hs
      obtain ⟨decl, -, hs⟩ := except_bind_eq_ok.1 hs
      cases hs
      exact h.addMethod _ _ _
  | constructor owner params mods varargs key =>
    obtain ⟨o, -, hs⟩ := except_bind_eq_ok.1 hs
    obtain ⟨ps, -, hs⟩ := except_bind_eq_ok.1 hs
    cases hs
    exact h.addMethod _ _ _

/-- Writing a unit records it as the source of the types it declares, which keeps the shape. -/
theorem Shaped.writeUnit (h : s.Shaped) {u : Outline.SourceUnit} (hw : s.writeUnit u = .ok s') :
    s'.Shaped := by
  obtain ⟨⟨tree, declared⟩, -, hw⟩ := except_bind_eq_ok.1 hw
  cases hw
  -- no name, declaration or supertype reads the source unit
  have hfold := foldl_invariant (fun c : Bindings => c.Shaped ∧ c.types.size = s.bindings.types.size)
    (fun c t => c.modifyType t fun i => { i with sourceUnit := some ⟨u.file⟩ })
    (fun c t ⟨hc, hsize⟩ => ⟨hc.modifyType t (fun _ => ⟨⟨rfl, rfl, rfl, rfl⟩, rfl⟩)
      fun x hx => hc.wellFormed.supertype_lt hx, by simp [hsize]⟩) declared s.bindings
    ⟨h.bindings, rfl⟩
  exact ⟨hfold.1, fun p hp => hfold.2 ▸ h.keys_lt p hp⟩

/-- Declarations of a program, made one after another, keep the shape. -/
theorem Shaped.foldlM_declare : ∀ {ds : List Declaration} {s s' : Setup},
    (∀ d ∈ ds, d.OfProgram) → s.Shaped → ds.foldlM Setup.declare s = .ok s' → s'.Shaped
  | [], s, s', _, h, hs => by
    cases hs
    exact h
  | d :: ds, s, s', hd, h, hs => by
    rw [List.foldlM_cons] at hs
    obtain ⟨s₁, h₁, hs⟩ := except_bind_eq_ok.1 hs
    exact foldlM_declare (fun d' hd' => hd d' (List.mem_cons_of_mem d hd'))
      (h.declare (hd d List.mem_cons_self) h₁) hs

/-- **Tables that a setup builds have the shape the theorems ask for.** A table built from a new
one by the declarations of a program, then the units written against it, is well formed, its
instantiations name types as their generic declarations do, its primitive types and the type of
`null` are in no package and enclosed by no type, its enclosing links have no cycle, and its
primitive types have names. -/
theorem bindings_shaped {ds : List Declaration} {us : List Outline.SourceUnit} {s₀ s : Setup}
    (hd : ∀ d ∈ ds, d.OfProgram) (hs₀ : ds.foldlM Setup.declare {} = .ok s₀)
    (hs : us.foldlM Setup.writeUnit s₀ = .ok s) :
    s.bindings.WellFormed ∧ s.bindings.InstancesAlike ∧ s.bindings.PrimitivesBare ∧
      s.bindings.EnclosingAcyclic ∧
      ∀ t, s.bindings.isPrimitive t = true → (s.bindings.ty t).name ≠ "" := by
  have h₀ := Shaped.foldlM_declare hd shaped_default hs₀
  have h := (foldlM_invariant Shaped (fun s u => s.writeUnit u)
    (fun _ _ _ hs hw => hs.writeUnit hw) us s₀ s h₀ hs).bindings
  exact ⟨h.wellFormed, h.instancesAlike, h.primitivesBare, h.enclosingAcyclic,
    fun _ ht => h.name_ne_empty_of_isPrimitive ht⟩

end Setup

/-- No parameter name proposed against a shaped table is empty: its primitive types have names. -/
theorem Naming.forArguments_ne_empty_of_shaped {b : Bindings} (hb : b.Shaped) (t : SyntaxTree)
    (args : List (NodeId × TypeId)) (reserved : List String) :
    ∀ n ∈ Naming.forArguments t b args reserved, n ≠ "" :=
  Naming.forArguments_ne_empty t b args (fun _ _ hp => hb.name_ne_empty_of_isPrimitive hp) reserved

end QuickFix
