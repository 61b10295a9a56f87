import Mathlib.Data.List.Nodup
import Mathlib.Data.List.Perm.Subperm
import Std.Data.String.ToNat
import QuickFix.Fix.Unresolved.Naming

/-!
# Names of new parameters are fresh

The names chosen for the parameters of a created member come left to right, each against the
reserved names and the names chosen before it. Main statement (`forArguments_least_free`):
there is one name per argument; the names are pairwise distinct and are neither reserved nor
keywords; each is the argument's base name when that is free, else the base followed by the
least number from `2` that makes it free. None is empty when every primitive type among the
arguments' types has a name, as the well-known ones do.

The search for a numbered name looks at `base2` to `base(k+2)` only, where `k` names are
taken. That is no loss: these `k + 1` names are distinct and none is a keyword, since a keyword
has no digit, so one of them is free, and the first free one is the least free number overall.
-/

namespace QuickFix.Naming

/-! ### Numbered names -/

/-- The decimal form of a number is made of digits. -/
theorem isDigit_of_mem_toString {n : Nat} {c : Char} (h : c ∈ (toString n).toList) :
    c.isDigit = true := by
  have h' : c ∈ Nat.toDigits 10 n := by
    have e : (toString n).toList = Nat.toDigits 10 n := String.toList_ofList
    rwa [e] at h
  exact Nat.isDigit_of_mem_toDigits (by decide) (by decide) h'

/-- The decimal form of a number is not empty. -/
theorem toString_toList_ne_nil (n : Nat) : (toString n).toList ≠ [] := by
  have e : (toString n).toList = Nat.toDigits 10 n := String.toList_ofList
  rw [e]
  exact Nat.toDigits_ne_nil

/-- No keyword has a digit, as a check of the list. -/
theorem keywords_all_not_isDigit :
    (keywords.all fun kw => kw.toList.all fun c => !c.isDigit) = true := by
  decide

/-- No keyword has a digit. -/
theorem not_isDigit_of_keyword : ∀ kw ∈ keywords, ∀ c ∈ kw.toList, c.isDigit = false := by
  intro kw hkw c hc
  have h := List.all_eq_true.1 (List.all_eq_true.1 keywords_all_not_isDigit kw hkw) c hc
  simpa using h

/-- A name that ends in a number is never a keyword. -/
theorem isKeyword_numbered (base : String) (n : Nat) : isKeyword (base ++ toString n) = false := by
  rw [Bool.eq_false_iff]
  intro h
  obtain ⟨c, hc⟩ := List.exists_mem_of_ne_nil _ (toString_toList_ne_nil n)
  have hmem : c ∈ (base ++ toString n).toList := by
    rw [String.toList_append]
    exact List.mem_append_right _ hc
  have hk := not_isDigit_of_keyword _ (List.contains_iff_mem.1 h) c hmem
  rw [isDigit_of_mem_toString hc] at hk
  exact Bool.noConfusion hk

/-- Different numbers give different names. -/
theorem numbered_injective (base : String) :
    Function.Injective fun n : Nat => base ++ toString n := by
  intro m n h
  have h' : (toString m).toList = (toString n).toList := by
    have e := congrArg String.toList h
    simp only [String.toList_append] at e
    exact List.append_cancel_left e
  exact Nat.repr_injective (String.toList_inj.1 h')

/-- A name is free when it is no keyword and not taken. -/
theorem isFree_iff (taken : List String) (s : String) :
    isFree taken s = true ↔ isKeyword s = false ∧ s ∉ taken := by
  simp [isFree]

/-- The numbered names that the search looks at. -/
def candidates (base : String) (taken : List String) : List String :=
  (List.range (taken.length + 1)).map fun n => base ++ toString (n + 2)

theorem length_candidates (base : String) (taken : List String) :
    (candidates base taken).length = taken.length + 1 := by
  simp [candidates]

theorem getElem_candidates (base : String) (taken : List String) {i : Nat}
    (h : i < (candidates base taken).length) :
    (candidates base taken)[i] = base ++ toString (i + 2) := by
  simp [candidates]

theorem nodup_candidates (base : String) (taken : List String) : (candidates base taken).Nodup := by
  refine List.Nodup.map ?_ List.nodup_range
  intro m n h
  have := numbered_injective base h
  omega

/-- One of the numbered names looked at is free: they are more than the taken names, distinct,
and no keyword. -/
theorem exists_free_candidate (base : String) (taken : List String) :
    ∃ s ∈ candidates base taken, isFree taken s = true := by
  refine Classical.byContradiction fun hno => ?_
  have hsub : candidates base taken ⊆ taken := by
    intro s hs
    refine Classical.byContradiction fun hnot => hno ⟨s, hs, ?_⟩
    obtain ⟨n, -, rfl⟩ := List.mem_map.1 hs
    exact (isFree_iff _ _).2 ⟨isKeyword_numbered _ _, hnot⟩
  have hle := ((nodup_candidates base taken).subperm hsub).length_le
  rw [length_candidates] at hle
  omega

/-! ### One name -/

/-- The name chosen for a base: the base when it is free, else the base followed by the least
number from `2` that makes it free. -/
theorem unique_cases (base : String) (taken : List String) :
    (isFree taken base = true ∧ unique base taken = base) ∨
    (isFree taken base = false ∧ ∃ k, 2 ≤ k ∧ unique base taken = base ++ toString k ∧
      isFree taken (base ++ toString k) = true ∧
      ∀ j, 2 ≤ j → j < k → isFree taken (base ++ toString j) = false) := by
  by_cases hb : isFree taken base = true
  · exact Or.inl ⟨hb, by simp [unique, hb]⟩
  · right
    refine ⟨Bool.eq_false_iff.2 hb, ?_⟩
    -- some candidate is free, so the search finds the first free one, at some index `i`
    obtain ⟨s, hs, hfree⟩ := exists_free_candidate base taken
    have hsome : ((candidates base taken).find? (isFree taken)).isSome = true :=
      List.find?_isSome.2 ⟨s, hs, hfree⟩
    obtain ⟨x, hx⟩ := Option.isSome_iff_exists.1 hsome
    obtain ⟨hpx, i, hi, hxi, hbefore⟩ := List.find?_eq_some_iff_getElem.1 hx
    have hu : unique base taken = x := by
      have e : unique base taken = ((candidates base taken).find? (isFree taken)).getD base := by
        simp [unique, hb, candidates]
      rw [e, hx]
      rfl
    -- candidate `i` is the base followed by `i + 2`; the ones before it are taken
    rw [getElem_candidates] at hxi
    refine ⟨i + 2, by omega, by rw [hu, hxi], by rw [hxi]; exact hpx, ?_⟩
    intro j hj hjk
    have hj' : j - 2 < (candidates base taken).length := by
      rw [length_candidates]; rw [length_candidates] at hi; omega
    have hnot := hbefore (j - 2) (by omega)
    rw [getElem_candidates base taken hj'] at hnot
    have e : j - 2 + 2 = j := by omega
    rw [e] at hnot
    simpa using hnot

/-- The chosen name is free. -/
theorem isFree_unique (base : String) (taken : List String) :
    isFree taken (unique base taken) = true := by
  rcases unique_cases base taken with ⟨hb, hu⟩ | ⟨-, k, -, hu, hk, -⟩
  · rw [hu]; exact hb
  · rw [hu]; exact hk

/-- The chosen name is not empty when the base is not. -/
theorem unique_ne_empty {base : String} (taken : List String) (h : base ≠ "") :
    unique base taken ≠ "" := by
  rcases unique_cases base taken with ⟨-, hu⟩ | ⟨-, k, -, hu, -, -⟩
  · rw [hu]; exact h
  · rw [hu]
    intro he
    have e := congrArg String.toList he
    rw [String.toList_append] at e
    exact toString_toList_ne_nil k (List.append_eq_nil_iff.1 e).2

/-! ### Base names -/

/-- The decapitalised form of a name is empty only when the name is. -/
theorem decapitalize_ne_empty {s : String} (h : s ≠ "") : decapitalize s ≠ "" := by
  unfold decapitalize
  split
  · rename_i hs
    exact absurd (String.toList_inj.1 (by rw [hs]; rfl)) h
  · rename_i c rest _
    split
    · exact h
    · intro he
      have e := congrArg String.toList he
      rw [String.toList_ofList] at e
      have hl : Text.lowerCase c ≠ [] := by
        unfold Text.lowerCase
        split
        · simp
        · split <;> simp
      exact hl (List.append_eq_nil_iff.1 e).1

/-- A name after a type is empty only for a primitive type without a name. -/
theorem ofType_ne_empty (b : Bindings) (ty : TypeId)
    (h : b.isPrimitive (b.erase ty) = true → (b.ty (b.erase ty)).name ≠ "") : ofType b ty ≠ "" := by
  unfold ofType
  simp only
  split
  · rename_i hp
    have hn := h hp
    intro he
    have e := congrArg String.toList he
    rw [String.toList_ofList] at e
    cases hc : (b.ty (b.erase ty)).name.toList with
    | nil => exact hn (String.toList_inj.1 (by rw [hc]; rfl))
    | cons c rest => rw [hc] at e; simp at e
  · split
    · intro he
      exact absurd (congrArg String.toList he) (by decide)
    · rename_i _ hne
      exact decapitalize_ne_empty fun he => hne (by rw [he]; rfl)

/-- The base name of an argument is empty only for a primitive type without a name. -/
theorem ofArgument_ne_empty (t : SyntaxTree) (b : Bindings) (ty : TypeId)
    (h : b.isPrimitive (b.erase ty) = true → (b.ty (b.erase ty)).name ≠ "") :
    ∀ fuel arg, ofArgument t b ty fuel arg ≠ "" := by
  intro fuel
  induction fuel with
  | zero =>
    intro arg
    unfold ofArgument
    dsimp only
    repeat' split
    all_goals first
      | exact ofType_ne_empty b ty h
      | omega
      | (rename_i hne; intro he; rw [he] at hne; exact hne (by decide))
  | succ fuel ih =>
    intro arg
    unfold ofArgument
    dsimp only
    repeat' split
    all_goals first
      | exact ofType_ne_empty b ty h
      | (rename_i heq; cases heq; exact ih _)
      | (rename_i hne; intro he; rw [he] at hne; exact hne (by decide))

/-! ### All the names -/

theorem forArguments_nil (t : SyntaxTree) (b : Bindings) (reserved : List String) :
    forArguments t b [] reserved = [] := rfl

/-- The name of the first argument is chosen against the reserved names, and those after it
against the reserved names and it. -/
theorem forArguments_cons (t : SyntaxTree) (b : Bindings) (arg : NodeId) (ty : TypeId)
    (rest : List (NodeId × TypeId)) (reserved : List String) :
    forArguments t b ((arg, ty) :: rest) reserved =
      unique (ofArgument t b ty t.size arg) reserved ::
        forArguments t b rest (reserved ++ [unique (ofArgument t b ty t.size arg) reserved]) :=
  rfl

/-- The name of each argument is the one chosen for its base against the reserved names and
the names before it; the names are as many as the arguments. -/
theorem forArguments_at (t : SyntaxTree) (b : Bindings) (args : List (NodeId × TypeId)) :
    ∀ (reserved : List String), (forArguments t b args reserved).length = args.length ∧
      ∀ i arg ty, args[i]? = some (arg, ty) →
        (forArguments t b args reserved)[i]? =
          some (unique (ofArgument t b ty t.size arg)
            (reserved ++ (forArguments t b args reserved).take i)) := by
  induction args with
  | nil => intro reserved; simp [forArguments_nil]
  | cons a rest ih =>
    intro reserved
    obtain ⟨arg, ty⟩ := a
    rw [forArguments_cons]
    obtain ⟨hlen, hget⟩ := ih (reserved ++ [unique (ofArgument t b ty t.size arg) reserved])
    refine ⟨by simp [hlen], ?_⟩
    intro i arg' ty' hi
    cases i with
    | zero =>
      simp only [List.getElem?_cons_zero, Option.some.injEq, Prod.mk.injEq] at hi
      obtain ⟨rfl, rfl⟩ := hi
      simp
    | succ i =>
      simp only [List.getElem?_cons_succ] at hi
      rw [List.getElem?_cons_succ, hget i arg' ty' hi]
      simp

/-- Every name is free of keywords and of the reserved names, and the names are distinct. -/
theorem forArguments_fresh (t : SyntaxTree) (b : Bindings) (args : List (NodeId × TypeId)) :
    ∀ (reserved : List String), (forArguments t b args reserved).Nodup ∧
      ∀ n ∈ forArguments t b args reserved, n ∉ reserved ∧ isKeyword n = false := by
  induction args with
  | nil => intro reserved; simp [forArguments_nil]
  | cons a rest ih =>
    intro reserved
    obtain ⟨arg, ty⟩ := a
    rw [forArguments_cons]
    set n := unique (ofArgument t b ty t.size arg) reserved
    obtain ⟨hnd, hfresh⟩ := ih (reserved ++ [n])
    have hn := (isFree_iff _ _).1 (isFree_unique (ofArgument t b ty t.size arg) reserved)
    refine ⟨List.nodup_cons.2 ⟨fun hm => (hfresh n hm).1 (by simp), hnd⟩, ?_⟩
    intro m hm
    rcases List.mem_cons.1 hm with rfl | hm
    · exact ⟨hn.2, hn.1⟩
    · have := hfresh m hm
      exact ⟨fun hr => this.1 (List.mem_append_left _ hr), this.2⟩

/-- No name is empty when every primitive type among the arguments' types has a name. -/
theorem forArguments_ne_empty (t : SyntaxTree) (b : Bindings) (args : List (NodeId × TypeId))
    (h : ∀ p ∈ args, b.isPrimitive (b.erase p.2) = true → (b.ty (b.erase p.2)).name ≠ "") :
    ∀ (reserved : List String), ∀ n ∈ forArguments t b args reserved, n ≠ "" := by
  induction args with
  | nil => intro reserved; simp [forArguments_nil]
  | cons a rest ih =>
    intro reserved
    obtain ⟨arg, ty⟩ := a
    rw [forArguments_cons]
    intro n hn
    rcases List.mem_cons.1 hn with rfl | hn
    · exact unique_ne_empty _ (ofArgument_ne_empty t b ty (h (arg, ty) (by simp)) _ _)
    · exact ih (fun p hp => h p (List.mem_cons_of_mem _ hp)) _ n hn

/-- **Parameter names are fresh and least.** There is one name per argument; the names are
pairwise distinct, and none is reserved or a keyword. Each is its argument's base name when
that is free of keywords, the reserved names and the names chosen for the arguments before it;
else it is that base followed by the least number `k ≥ 2` that makes it free. No name is empty
when every primitive type among the arguments' types has a name. -/
theorem forArguments_least_free (t : SyntaxTree) (b : Bindings) (args : List (NodeId × TypeId))
    (reserved : List String) :
    (forArguments t b args reserved).length = args.length ∧
    (forArguments t b args reserved).Nodup ∧
    (∀ n ∈ forArguments t b args reserved, n ∉ reserved ∧ isKeyword n = false) ∧
    ((∀ p ∈ args, b.isPrimitive (b.erase p.2) = true → (b.ty (b.erase p.2)).name ≠ "") →
      ∀ n ∈ forArguments t b args reserved, n ≠ "") ∧
    ∀ i arg ty, args[i]? = some (arg, ty) →
      let base := ofArgument t b ty t.size arg
      let free := fun s => isKeyword s = false ∧ s ∉ reserved ∧
        s ∉ (forArguments t b args reserved).take i
      (free base ∧ (forArguments t b args reserved)[i]? = some base) ∨
      (¬ free base ∧ ∃ k, 2 ≤ k ∧
        (forArguments t b args reserved)[i]? = some (base ++ toString k) ∧
        free (base ++ toString k) ∧ ∀ j, 2 ≤ j → j < k → ¬ free (base ++ toString j)) := by
  obtain ⟨hlen, hget⟩ := forArguments_at t b args reserved
  obtain ⟨hnd, hfresh⟩ := forArguments_fresh t b args reserved
  refine ⟨hlen, hnd, hfresh, fun h => forArguments_ne_empty t b args h reserved, ?_⟩
  intro i arg ty hi
  -- name `i` is chosen against the reserved names and the names before it
  have hfree : ∀ s, isFree (reserved ++ (forArguments t b args reserved).take i) s = true ↔
      isKeyword s = false ∧ s ∉ reserved ∧ s ∉ (forArguments t b args reserved).take i := by
    intro s
    rw [isFree_iff, List.mem_append, not_or]
  rw [hget i arg ty hi]
  rcases unique_cases (ofArgument t b ty t.size arg)
      (reserved ++ (forArguments t b args reserved).take i) with
    ⟨hb, hu⟩ | ⟨hb, k, hk, hu, hkf, hleast⟩
  · exact Or.inl ⟨(hfree _).1 hb, by rw [hu]⟩
  · refine Or.inr ⟨fun h => by rw [(hfree _).2 h] at hb; exact Bool.noConfusion hb, k, hk,
      by rw [hu], (hfree _).1 hkf, fun j hj hjk h => ?_⟩
    have := hleast j hj hjk
    rw [(hfree _).2 h] at this
    exact Bool.noConfusion this

/-- Two arguments of type `int` with `i` reserved are named `i2` and `i3`, and the well-known
primitive types have names. -/
theorem forArguments_two_ints :
    (∀ p ∈ [(SyntaxTree.root, Bindings.int), (SyntaxTree.root, Bindings.int)],
      Bindings.empty.isPrimitive (Bindings.empty.erase p.2) = true →
        (Bindings.empty.ty (Bindings.empty.erase p.2)).name ≠ "") ∧
    (∀ n ∈ forArguments default Bindings.empty
        [(SyntaxTree.root, Bindings.int), (SyntaxTree.root, Bindings.int)] ["i"], n ≠ "") ∧
    forArguments default Bindings.empty
      [(SyntaxTree.root, Bindings.int), (SyntaxTree.root, Bindings.int)] ["i"] = ["i2", "i3"] :=
  ⟨by decide, (forArguments_least_free default Bindings.empty
      [(SyntaxTree.root, Bindings.int), (SyntaxTree.root, Bindings.int)] ["i"]).2.2.2.1
      (by decide), by decide⟩

end QuickFix.Naming
