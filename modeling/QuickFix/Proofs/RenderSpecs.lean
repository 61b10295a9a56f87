import QuickFix.Proofs.RenderLayout
import QuickFix.Outline.Render

/-!
# Specifications of the rendering steps

A rendering step is a function of the context and the state. `Spec P x Q` says that from every
state `st` in `P`, running `x` returns `a` and ends in a state `st'` with `Q st a st'`: the
postcondition relates the final state to the first, so that what a step keeps of the nodes
written before it can be said. `Spec.bind` names the state between two steps, so a proof reads
as the rendering runs, one step after the other.

The steps that write text and nodes are given exact specifications: the state they end in. The
steps built from them (`name`, `typeRef`, …) get specifications in terms of the layout
(`Sound`): they keep it, write one node under the innermost open node, and keep the nodes written
before (`Grows`).
-/

namespace QuickFix.Outline

open TreeBuilder

namespace RenderM

/-! ### Running a step -/

section apply

variable {α β : Type} (ctx : RenderContext) (st : RenderState)

theorem bind_apply (x : RenderM α) (f : α → RenderM β) :
    (x >>= f) ctx st = f (x ctx st).1 ctx (x ctx st).2 := rfl

theorem get_apply : (get : RenderM RenderState) ctx st = (st, st) := rfl

theorem pure_apply (a : α) : (pure a : RenderM α) ctx st = (a, st) := rfl

end apply

/-! ### Specifications -/

/-- From every state `st` in `P`, in every context, `x` returns `a` and ends in `st'` with
`Q st a st'`. -/
def Spec {α : Type} (P : RenderState → Prop) (x : RenderM α)
    (Q : RenderState → α → RenderState → Prop) : Prop :=
  ∀ ctx st, P st → Q st (x ctx st).1 (x ctx st).2

namespace Spec

variable {α β γ : Type} {P : RenderState → Prop} {Q : RenderState → α → RenderState → Prop}

/-- Two steps in a row: the second runs from the state the first ends in, named `st₁`. -/
theorem bind {x : RenderM α} {f : α → RenderM β} {R : RenderState → β → RenderState → Prop}
    (hx : Spec P x Q)
    (hf : ∀ st a st₁, P st → Q st a st₁ → Spec (· = st₁) (f a) fun _ b st₂ => R st b st₂) :
    Spec P (x >>= f) R :=
  fun ctx st hP => hf st _ _ hP (hx ctx st hP) ctx _ rfl

/-- Two steps in a row from one state `st`: the second runs from the state the first ends in. -/
theorem bind_eq {st : RenderState} {x : RenderM α} {f : α → RenderM β}
    {R : β → RenderState → Prop} (hx : Spec (· = st) x Q)
    (hf : ∀ a st₁, Q st a st₁ → Spec (· = st₁) (f a) fun _ b st₂ => R b st₂) :
    Spec (· = st) (x >>= f) fun _ b st₂ => R b st₂ :=
  bind hx fun _ a st₁ hst hQ => by subst hst; exact hf a st₁ hQ

/-- A step named before it runs, as the join point of branches: what holds of every step with
the property `J` holds of it. -/
theorem have_jp {γ : Type} {v : γ} {body : γ → RenderM α} (J : γ → Prop) (hv : J v)
    (h : ∀ jp, J jp → Spec P (body jp) Q) : Spec P (have jp := v; body jp) Q :=
  h v hv

/-- A specification used at one state that meets its precondition. -/
theorem at_ {x : RenderM α} (h : Spec P x Q) {st : RenderState} (hP : P st) :
    Spec (· = st) x Q := by
  rintro ctx s rfl
  exact h ctx s hP

theorem pure {a : α} {R : RenderState → α → RenderState → Prop} (h : ∀ st, P st → R st a st) :
    Spec P (Pure.pure a) R :=
  fun _ st hP => h st hP

theorem pure_eq {st : RenderState} {a : α} {R : α → RenderState → Prop} (h : R a st) :
    Spec (· = st) (Pure.pure a) fun _ b st' => R b st' := by
  rintro _ _ rfl
  exact h

theorem mono {x : RenderM α} {Q' : RenderState → α → RenderState → Prop} (h : Spec P x Q)
    (hQ : ∀ st a st', P st → Q st a st' → Q' st a st') : Spec P x Q' :=
  fun ctx st hP => hQ _ _ _ hP (h ctx st hP)

/-- A loop over a list whose every round goes on keeps what each round keeps: `I done b st` holds
after the elements `done`, with `b` the value carried along. -/
theorem forIn {xs : List γ} {b₀ : β} {f : γ → β → RenderM (ForInStep β)} {st₀ : RenderState}
    (I : List γ → β → RenderState → Prop) (h₀ : I [] b₀ st₀)
    (hstep : ∀ done a rest b st, xs = done ++ a :: rest → I done b st →
      Spec (· = st) (f a b) fun _ r st' => ∃ b', r = .yield b' ∧ I (done ++ [a]) b' st') :
    Spec (· = st₀) (ForIn.forIn xs b₀ f) fun _ b st => I xs b st := by
  -- run over the rest of the list, from any point of it
  suffices h : ∀ rest done b st, xs = done ++ rest → I done b st →
      Spec (· = st) (ForIn.forIn rest b f) fun _ b' st' => I xs b' st' by
    exact h xs [] b₀ st₀ rfl h₀
  intro rest
  induction rest with
  | nil =>
    intro done b st hxs hI
    rintro ctx s rfl
    simp only [List.append_nil] at hxs
    subst hxs
    exact hI
  | cons a rest ih =>
    intro done b st hxs hI
    rw [List.forIn_cons]
    refine bind (hstep done a rest b st hxs hI) ?_
    rintro _ r st₁ rfl ⟨b', rfl, hI'⟩
    exact ih (done ++ [a]) b' st₁ (by simp [hxs]) hI'

end Spec

/-! ### What rendering keeps -/

/-- The layout of a rendering state, with the open nodes `O`. -/
def Sound (O : List NodeId) (st : RenderState) : Prop := Layout O st.builder st.out

/-- The weight of the annotations held back. -/
def pendingWeight (st : RenderState) : Nat := annotationsWeight st.pending

/-- What a node of role `r` needs to be written under the innermost of the open nodes `O`: the
layout, an open node to hang under, and an end of text after the siblings that continues the
list of role `r`. -/
structure Ready (O : List NodeId) (r : Role) (st : RenderState) : Prop where
  sound : Sound O st
  ne_nil : O ≠ []
  fresh : Fresh st.builder st.out
  listReady : ListReady r st.builder st.out

/-- A step that only writes text, changes the data of nodes or moves the indentation. -/
structure Minor (st st' : RenderState) : Prop where
  builder : Retouched st.builder st'.builder
  pending : st'.pending = st.pending
  out : ∃ s, st'.out = st.out ++ s

namespace Minor

variable {O : List NodeId} {st st₁ st₂ : RenderState}

theorem refl (st : RenderState) : Minor st st := ⟨.refl _, rfl, "", by simp⟩

theorem trans (h₁ : Minor st st₁) (h₂ : Minor st₁ st₂) : Minor st st₂ := by
  obtain ⟨s, hs⟩ := h₁.out
  obtain ⟨t, ht⟩ := h₂.out
  exact ⟨h₁.builder.trans h₂.builder, h₂.pending.trans h₁.pending, s ++ t,
    by rw [ht, hs, String.append_assoc]⟩

theorem sound (h : Minor st st₁) (hs : Sound O st) : Sound O st₁ := by
  obtain ⟨s, hs'⟩ := h.out
  unfold Sound
  rw [hs']
  exact (h.builder.layout hs).append s

theorem fresh (h : Minor st st₁) (hf : Fresh st.builder st.out) : Fresh st₁.builder st₁.out := by
  obtain ⟨s, hs'⟩ := h.out
  rw [hs']
  exact (h.builder.fresh hf).append s

theorem pendingWeight_eq (h : Minor st st₁) : pendingWeight st₁ = pendingWeight st := by
  rw [pendingWeight, h.pending, pendingWeight]

end Minor

/-- Text written at the end of a state: only the text changes. -/
theorem minor_text (st : RenderState) (s : String) : Minor st { st with out := st.out ++ s } :=
  ⟨.refl _, rfl, s, rfl⟩

/-- After text that is not empty, a node opened at the end comes after all before it. -/
theorem fresh_text {O : List NodeId} {st : RenderState} (h : Sound O st) {s : String}
    (hs : s ≠ "") : Fresh st.builder (st.out ++ s) :=
  Shape.fresh_append h.toShape hs

/-! ### Steps that write -/

section primitive

variable {α : Type} {P : RenderState → Prop}

theorem spec_text (s : String) :
    Spec P (text s) fun st _ st' => st' = { st with out := st.out ++ s } := fun _ _ _ => rfl

/-- Text leaves the builder as it is. -/
theorem Spec.text_builder {Q : RenderState → Unit → RenderState → Prop} {s : String}
    (h : Spec P (text s) Q) : Spec P (text s) fun st a st' => Q st a st' ∧ st'.builder = st.builder :=
  fun ctx st hP => ⟨h ctx st hP, rfl⟩

theorem spec_newline :
    Spec P newline fun st _ st' =>
      st' = { st with out := st.out ++ ("\n" ++ String.join (List.replicate st.indent "    ")) } :=
  fun _ st _ => by simp only [newline, String.append_assoc]; rfl

theorem spec_modify (f : RenderState → RenderState) :
    Spec P (modify f : RenderM PUnit) fun st _ st' => st' = f st := fun _ _ _ => rfl

theorem spec_onBuilder (f : TreeBuilder → TreeBuilder) :
    Spec P (onBuilder f) fun st _ st' => st' = { st with builder := f st.builder } :=
  fun _ _ _ => rfl

theorem spec_get : Spec P (get : RenderM RenderState) fun st a st' => a = st ∧ st' = st :=
  fun _ _ _ => ⟨rfl, rfl⟩

/-- A step that only reads leaves the state as it was. -/
theorem spec_read {x : RenderM α} (hx : ∀ ctx st, (x ctx st).2 = st) :
    Spec P x fun st _ st' => st' = st := fun ctx st _ => hx ctx st

theorem spec_start (k : SyntaxKind) (r : Role) :
    Spec P (start k r) fun st n st' => n = ⟨st.builder.nodes.size⟩ ∧
      st' = { st with builder := (st.builder.startNode k r (Text.byteSize st.out.toList)).1 } := by
  intro ctx st _
  simp only [start, pos, bind_apply, get_apply, pure_apply, Text.utf8ByteSize_eq_byteSize]
  exact ⟨rfl, rfl⟩

theorem spec_finish :
    Spec P finish fun st n st' => ∀ m O, st.builder.openNodes = m :: O → n = m ∧
      st' = { st with builder := { st.builder.modify m
        (Node.closedAt (Text.byteSize st.out.toList)) with openNodes := O } } := by
  intro ctx st _ m O hop
  have h := finishNode_of_openNodes st.builder hop (Text.byteSize st.out.toList)
  simp only [finish, pos, bind_apply, get_apply, pure_apply, Text.utf8ByteSize_eq_byteSize]
  rw [h]
  exact ⟨rfl, rfl⟩

theorem spec_leaf (k : SyntaxKind) (r : Role) (s : String) :
    Spec P (leaf k r s) fun st n st' => n = ⟨st.builder.nodes.size⟩ ∧
      st' = { st with out := st.out ++ s, builder := (st.builder.leaf k r
        ⟨Text.byteSize st.out.toList, Text.byteSize (st.out ++ s).toList⟩).1 } := by
  intro ctx st _
  simp only [RenderM.leaf, pos, text, bind_apply, get_apply, pure_apply,
    Text.utf8ByteSize_eq_byteSize]
  exact ⟨by rw [TreeBuilder.leaf_eq]; rfl, rfl⟩

end primitive

/-! ### Changes of data -/

/-- Only the data of nodes changed: bindings, types, modifiers, and identifiers of nodes that are
no simple names. -/
structure Retouch (st st' : RenderState) : Prop where
  builder : Retouched st.builder st'.builder
  out : st'.out = st.out
  pending : st'.pending = st.pending

namespace Retouch

variable {st st₁ st₂ : RenderState}

theorem refl (st : RenderState) : Retouch st st := ⟨.refl _, rfl, rfl⟩

theorem trans (h₁ : Retouch st st₁) (h₂ : Retouch st₁ st₂) : Retouch st st₂ :=
  ⟨h₁.builder.trans h₂.builder, h₂.out.trans h₁.out, h₂.pending.trans h₁.pending⟩

theorem minor (h : Retouch st st₁) : Minor st st₁ := ⟨h.builder, h.pending, "", by simp [h.out]⟩

end Retouch

/-- A step that only reads and changes data, and returns `a`. -/
def RetouchTo {α : Type} (x : RenderM α) (a : α) : Prop :=
  ∀ ctx st, (x ctx st).1 = a ∧ Retouch st (x ctx st).2

/-- A step that only reads and changes data. -/
def Retouching {α : Type} (x : RenderM α) : Prop := ∀ ctx st, Retouch st (x ctx st).2

section retouching

variable {α β : Type}

theorem RetouchTo.retouching {x : RenderM α} {a : α} (h : RetouchTo x a) : Retouching x :=
  fun ctx st => (h ctx st).2

theorem retouchTo_pure (a : α) : RetouchTo (pure a : RenderM α) a :=
  fun _ st => ⟨rfl, .refl st⟩

theorem retouching_pure (a : α) : Retouching (pure a : RenderM α) :=
  (retouchTo_pure a).retouching

theorem Retouching.bind {x : RenderM α} {f : α → RenderM β} {b : β} (hx : Retouching x)
    (hf : ∀ a, RetouchTo (f a) b) : RetouchTo (x >>= f) b := fun ctx st =>
  ⟨(hf _ ctx _).1, (hx ctx st).trans (hf _ ctx _).2⟩

theorem Retouching.bind' {x : RenderM α} {f : α → RenderM β} (hx : Retouching x)
    (hf : ∀ a, Retouching (f a)) : Retouching (x >>= f) := fun ctx st =>
  (hx ctx st).trans (hf _ ctx _)

/-- A step that only reads. -/
theorem retouching_of_read {x : RenderM α} (hx : ∀ ctx st, (x ctx st).2 = st) : Retouching x :=
  fun ctx st => by rw [hx]; exact .refl st

theorem retouching_get : Retouching (get : RenderM RenderState) := retouching_of_read fun _ _ => rfl

theorem retouching_table : Retouching table := retouching_of_read fun _ _ => rfl

theorem retouching_typeOfNode (n : NodeId) : Retouching (typeOfNode n) :=
  retouching_of_read fun _ _ => rfl

theorem retouching_typeOf (x : Binding) : Retouching (typeOf x) :=
  retouching_of_read fun _ _ => rfl

/-- A change of one node that touches only its data and keeps every binding fitting. -/
theorem retouching_onBuilder_modify (id : NodeId) {f : Node → Node} (hf : Node.DataChange f)
    (hfits : ∀ nd, nd.BindingFits → (f nd).BindingFits) :
    Retouching (onBuilder (·.modify id f)) :=
  fun _ _ => ⟨.modify (.refl _) id hf (hfits _), rfl, rfl⟩

/-- A binding that is no type fits every node. -/
theorem retouching_setBinding (n : NodeId) (x : Binding) (hx : ∀ ty, x ≠ .type ty) :
    Retouching (setBinding n x) :=
  retouching_onBuilder_modify n ⟨fun _ => rfl, fun _ => rfl, fun _ => rfl, fun _ => rfl,
    fun _ => rfl, fun _ => rfl⟩ fun _ _ _ hy => Option.some.inj hy ▸ Binding.fitsKind_of_ne_type hx _

theorem retouching_setTypeBinding (n : NodeId) (t : TypeId) : Retouching (setTypeBinding n t) :=
  retouching_onBuilder_modify n ⟨fun _ => rfl, fun _ => rfl, fun _ => rfl, fun _ => rfl,
    fun _ => rfl, fun _ => rfl⟩ fun _ hb => hb.congr rfl rfl

theorem retouching_setModifiers (n : NodeId) (m : Modifiers) : Retouching (setModifiers n m) :=
  retouching_onBuilder_modify n ⟨fun _ => rfl, fun _ => rfl, fun _ => rfl, fun _ => rfl,
    fun _ => rfl, fun _ => rfl⟩ fun _ hb => hb.congr rfl rfl

/-- Setting a binding that fits the kind of the node. -/
theorem spec_setBinding {P : RenderState → Prop} (n : NodeId) (x : Binding)
    (hx : ∀ st, P st → x.FitsKind (st.builder.view.kind n)) :
    Spec P (setBinding n x) fun st _ st' => Retouch st st' :=
  fun _ st hP => ⟨.modify (.refl _) n ⟨fun _ => rfl, fun _ => rfl, fun _ => rfl, fun _ => rfl,
    fun _ => rfl, fun _ => rfl⟩ fun _ _ hy => Option.some.inj hy ▸ hx st hP, rfl, rfl⟩

/-- Setting the identifier of a node that is no simple name changes only its data. -/
theorem spec_setIdentifier {P : RenderState → Prop} {n : NodeId} (s : String)
    (hn : ∀ st, P st → st.builder.view.kind n ≠ .simpleName) :
    Spec P (setIdentifier n s) fun st _ st' => Retouch st st' :=
  fun _ st hP => ⟨.setIdentifier (.refl _) (hn st hP) s, rfl, rfl⟩

theorem Retouching.spec {P : RenderState → Prop} {x : RenderM α} (h : Retouching x) :
    Spec P x fun st _ st' => Retouch st st' := fun ctx st _ => h ctx st

theorem RetouchTo.spec {P : RenderState → Prop} {x : RenderM α} {a : α} (h : RetouchTo x a) :
    Spec P x fun st b st' => b = a ∧ Retouch st st' := fun ctx st _ => h ctx st

/-- A step that only changes data from every state in which node `n` has kind `k`, and returns
`a`: setting a binding needs to know the kind of the node it goes on. -/
def RetouchToAt (n : NodeId) (k : SyntaxKind) (x : RenderM α) (a : α) : Prop :=
  ∀ ctx st, st.builder.view.kind n = k → (x ctx st).1 = a ∧ Retouch st (x ctx st).2

theorem RetouchTo.at {x : RenderM α} {a : α} (h : RetouchTo x a) (n : NodeId) (k : SyntaxKind) :
    RetouchToAt n k x a :=
  fun ctx st _ => h ctx st

/-- Setting a binding that fits kind `k` on a node of that kind, then only changing data. -/
theorem RetouchToAt.setBinding_bind {n : NodeId} {k : SyntaxKind} {x : Binding}
    (hx : x.FitsKind k) {f : Unit → RenderM β} {b : β} (hf : ∀ u, RetouchTo (f u) b) :
    RetouchToAt n k (setBinding n x >>= f) b := fun ctx st hk => by
  have hr : Retouch st (setBinding n x ctx st).2 :=
    spec_setBinding n x (fun st' (hk' : st'.builder.view.kind n = k) => hk' ▸ hx) ctx st hk
  exact ⟨(hf () ctx _).1, hr.trans (hf () ctx _).2⟩

/-- Copying a binding onto a node of a kind that declares nothing, then only changing data. -/
theorem RetouchToAt.copyBinding_bind {src dst : NodeId} {k : SyntaxKind}
    (hk : SyntaxTree.isDeclarationKind k = false) {f : Unit → RenderM β} {b : β}
    (hf : ∀ u, RetouchTo (f u) b) : RetouchToAt dst k (copyBinding src dst >>= f) b :=
  fun ctx st hkd => by
    have hdecl : SyntaxTree.isDeclarationKind (st.builder.view.kind dst) = false := by rw [hkd]; exact hk
    have hr : Retouch st (copyBinding src dst ctx st).2 := ⟨.modify (.refl _) dst ⟨fun _ => rfl,
      fun _ => rfl, fun _ => rfl, fun _ => rfl, fun _ => rfl, fun _ => rfl⟩
      fun _ y _ => Binding.fitsKind_of_not_declaration hdecl y, rfl, rfl⟩
    exact ⟨(hf () ctx _).1, hr.trans (hf () ctx _).2⟩

end retouching

/-! ### Nodes written under the innermost open node -/

variable {O : List NodeId} {r : Role}

/-- Under the innermost of the open nodes `O`, no child has role `r` yet. -/
def NoList (O : List NodeId) (r : Role) (st : RenderState) : Prop :=
  ∀ p ∈ O.head?, st.builder.view.childrenWithRole p r = []

/-- A state where no list of role `r` has begun is ready for its first element. -/
theorem Ready.of_noList {st : RenderState} (hs : Sound O st) (hO : O ≠ [])
    (hf : Fresh st.builder st.out) (hn : NoList O r st) : Ready O r st :=
  ⟨hs, hO, hf, listReady_of_nil fun p hp => hn p (hs.current_eq ▸ hp)⟩

/-- A role of no list needs nothing of what comes before. -/
theorem listReady_of_not_listed {b : TreeBuilder} {out : String} (hr : ¬r.IsListed) :
    ListReady r b out := fun hl => absurd hl hr

/-- Nodes of role `r` were added under the innermost of the open nodes `O`, after the end of the
text there was, keeping the layout and the nodes there before; the text only grew. -/
structure Added (O : List NodeId) (r : Role) (st st' : RenderState) : Prop where
  sound : Sound O st'
  grows : Grows st.builder st'.builder
  children : ∀ p ∈ O.head?, ∃ ns, st'.builder.view.children p = st.builder.view.children p ++ ns ∧
    ∀ n ∈ ns, st'.builder.view.role n = r ∧
      Text.byteSize st.out.toList ≤ (st'.builder.view.range n).start
  out : ∃ s, st'.out = st.out ++ s

/-- One node `n` of role `r` was written as the last child of the innermost of the open nodes
`O`, from the end of the text there was to the end of the text, which only grew. -/
structure Wrote (O : List NodeId) (r : Role) (st : RenderState) (n : NodeId) (st' : RenderState) :
    Prop where
  sound : Sound O st'
  grows : Grows st.builder st'.builder
  children : ∀ p ∈ O.head?, st'.builder.view.children p = st.builder.view.children p ++ [n]
  role : st'.builder.view.role n = r
  stop : (st'.builder.view.range n).stop = Text.byteSize st'.out.toList
  out : ∃ s, st'.out = st.out ++ s
  start : (st'.builder.view.range n).start = Text.byteSize st.out.toList

/-- The node `n` of role `r`, opened from `st₀` under the innermost of `O` at the end of its text,
is being written. -/
structure Writing (O : List NodeId) (r : Role) (st₀ : RenderState) (n : NodeId) (st : RenderState) :
    Prop where
  sound : Sound (n :: O) st
  grows : Grows st₀.builder st.builder
  children : ∀ p ∈ O.head?, st.builder.view.children p = st₀.builder.view.children p ++ [n]
  role : st.builder.view.role n = r
  kind : st.builder.view.kind n ≠ .simpleName
  out : ∃ s, st.out = st₀.out ++ s
  start : (st.builder.view.range n).start = Text.byteSize st₀.out.toList

/-- A node being written whose kind has no frame, so that it can be closed wherever it ends. -/
structure Inside (O : List NodeId) (r : Role) (st₀ : RenderState) (n : NodeId) (st : RenderState) :
    Prop extends Writing O r st₀ n st where
  plain : (st.builder.view.kind n).parenList? = none

variable {st st₀ st₁ st₂ : RenderState} {n : NodeId}

theorem out_trans {s₁ s₂ s₃ : String} (h₁ : ∃ s, s₂ = s₁ ++ s) (h₂ : ∃ s, s₃ = s₂ ++ s) :
    ∃ s, s₃ = s₁ ++ s := by
  obtain ⟨s, rfl⟩ := h₁
  obtain ⟨t, rfl⟩ := h₂
  exact ⟨s ++ t, String.append_assoc⟩

theorem byteSize_le_of_out {s₁ s₂ : String} (h : ∃ s, s₂ = s₁ ++ s) :
    Text.byteSize s₁.toList ≤ Text.byteSize s₂.toList := by
  obtain ⟨s, rfl⟩ := h
  exact Text.byteSize_le_append s₁ s

namespace Added

theorem refl (h : Sound O st) : Added O r st st :=
  ⟨h, .refl _, fun _ _ => ⟨[], by simp, by simp⟩, ⟨"", by simp⟩⟩

theorem trans (h₁ : Added O r st st₁) (h₂ : Added O r st₁ st₂) : Added O r st st₂ := by
  refine ⟨h₂.sound, h₁.grows.trans h₂.grows, fun p hp => ?_, out_trans h₁.out h₂.out⟩
  obtain ⟨ns₁, hc₁, hr₁⟩ := h₁.children p hp
  obtain ⟨ns₂, hc₂, hr₂⟩ := h₂.children p hp
  refine ⟨ns₁ ++ ns₂, by rw [hc₂, hc₁, List.append_assoc], fun c hc => ?_⟩
  rcases List.mem_append.1 hc with hc | hc
  · -- an element added first keeps its role and where it starts
    have hlt : c.idx < st₁.builder.nodes.size :=
      h₁.sound.placed.idx_lt_of_mem_children (hc₁ ▸ List.mem_append_right _ hc)
    rw [h₂.grows.role c hlt, h₂.grows.start c hlt]
    exact hr₁ c hc
  · -- one added second starts after all the first wrote
    exact ⟨(hr₂ c hc).1, (byteSize_le_of_out h₁.out).trans (hr₂ c hc).2⟩

theorem minor (h : Added O r st st₁) (hm : Minor st₁ st₂) : Added O r st st₂ := by
  refine ⟨hm.sound h.sound, h.grows.trans hm.builder.grows, fun p hp => ?_, out_trans h.out hm.out⟩
  obtain ⟨ns, hc, hr⟩ := h.children p hp
  refine ⟨ns, by rw [(hm.builder.node p).2.2.2.1, hc], fun c hcn => ?_⟩
  rw [(hm.builder.node c).2.2.2.2, (hm.builder.node c).2.1]
  exact hr c hcn

/-- The list of any role under the innermost open node grows by the added nodes of that role. -/
theorem childrenWithRole_eq (h : Added O r st st₁) (hs : Sound O st) {p : NodeId}
    (hp : p ∈ O.head?) (r' : Role) : ∃ ns, (∀ c ∈ ns, st₁.builder.view.role c = r ∧
      Text.byteSize st.out.toList ≤ (st₁.builder.view.range c).start) ∧
      st₁.builder.view.children p = st.builder.view.children p ++ ns ∧
      st₁.builder.view.childrenWithRole p r' =
        st.builder.view.childrenWithRole p r' ++ ns.filter (st₁.builder.view.role · == r') := by
  obtain ⟨ns, hc, hrole⟩ := h.children p hp
  refine ⟨ns, hrole, hc, ?_⟩
  have hold : ∀ c ∈ st.builder.view.children p,
      (st₁.builder.view.role c == r') = (st.builder.view.role c == r') := fun c hc' => by
    rw [h.grows.role c (hs.placed.idx_lt_of_mem_children hc')]
  unfold SyntaxTree.childrenWithRole
  rw [hc, List.filter_append, List.filter_congr hold]

/-- Adding nodes of one role leaves every other list as it was: one not begun stays so. -/
theorem noList (h : Added O r st st₁) (hs : Sound O st) {r' : Role} (hr : r ≠ r')
    (hn : NoList O r' st) : NoList O r' st₁ := by
  intro p hp
  obtain ⟨ns, hrole, -, heq⟩ := h.childrenWithRole_eq hs hp r'
  rw [heq, hn p hp, List.nil_append]
  exact List.filter_eq_nil_iff.2 fun c hc => by simp [(hrole c hc).1, hr]

end Added

namespace Wrote

theorem added (h : Wrote O r st n st₁) : Added O r st st₁ :=
  ⟨h.sound, h.grows, fun p hp => ⟨[n], h.children p hp, fun c hc => by
    rw [List.mem_singleton.1 hc, h.start]
    exact ⟨h.role, le_rfl⟩⟩, h.out⟩

/-- The node written is the last of its list. -/
theorem childrenWithRole_eq (h : Wrote O r st n st₁) (hs : Sound O st) {p : NodeId}
    (hp : p ∈ O.head?) :
    st₁.builder.view.childrenWithRole p r = st.builder.view.childrenWithRole p r ++ [n] := by
  obtain ⟨ns, -, hc, heq⟩ := h.added.childrenWithRole_eq hs hp r
  obtain rfl : ns = [n] := List.append_cancel_left (hc.symm.trans (h.children p hp))
  rw [heq]
  simp [h.role]

/-- Once an element is written, its list has begun. -/
theorem not_noList (h : Wrote O r st n st₁) (hs : Sound O st) (hO : O ≠ []) :
    ¬NoList O r st₁ := by
  obtain ⟨p, hp⟩ : ∃ p, p ∈ O.head? := by
    cases O with
    | nil => exact absurd rfl hO
    | cons p _ => exact ⟨p, rfl⟩
  intro hn
  have := hn p hp
  rw [h.childrenWithRole_eq hs hp] at this
  simp at this

/-- Changing data afterwards keeps what was written. -/
theorem retouch (h : Wrote O r st n st₁) (h' : Retouch st₁ st₂) : Wrote O r st n st₂ := by
  obtain ⟨hk, hrange, -, hc, hrole⟩ := h'.builder.node n
  refine ⟨h'.minor.sound h.sound, h.grows.trans h'.builder.grows, fun p hp => ?_, ?_, ?_,
    out_trans h.out h'.minor.out, ?_⟩
  · rw [(h'.builder.node p).2.2.2.1]
    exact h.children p hp
  · rw [hrole]
    exact h.role
  · rw [hrange, h'.out]
    exact h.stop
  · rw [hrange]
    exact h.start

/-- After a list element that ends the text, the separator makes its list ready for the next. -/
theorem listReady_sep (h : Wrote O r st n st₁) : ListReady r st₁.builder (st₁.out ++ ", ") := by
  refine TreeBuilder.listReady_sep fun p a hp ha => ?_
  have hp' : p ∈ O.head? := h.sound.current_eq ▸ hp
  unfold SyntaxTree.childrenWithRole at ha
  rw [h.children p hp', List.filter_append] at ha
  simp only [List.filter_cons, h.role, beq_self_eq_true, if_true, List.filter_nil,
    List.getLast?_append_cons, List.getLast?_singleton, Option.some.injEq] at ha
  rw [← ha]
  exact h.stop

end Wrote

namespace Writing

/-- A step that keeps the layout with `n` open, keeps the nodes written and only writes text
keeps `n` being written: nothing else joins the node that `n` hangs under while `n` is open. -/
theorem step (h : Writing O r st₀ n st) (hs : Sound (n :: O) st₁) (hg : Grows st.builder st₁.builder)
    (ho : ∃ s, st₁.out = st.out ++ s) : Writing O r st₀ n st₁ := by
  have hn : n.idx < st.builder.nodes.size := h.sound.idx_lt_of_mem List.mem_cons_self
  refine ⟨hs, h.grows.trans hg, fun p hp => ?_, by rw [hg.role n hn]; exact h.role,
    by rw [hg.kind n hn]; exact h.kind, out_trans h.out ho, by rw [hg.start n hn]; exact h.start⟩
  have hpre := hg.children p
  rw [h.children p hp] at hpre
  exact hs.children_eq_of_open hpre

/-- The node being written keeps the kind it was opened with. -/
theorem kind_eq (h : Writing O r st₀ n st) (hg : Grows st.builder st₁.builder) :
    st₁.builder.view.kind n = st.builder.view.kind n :=
  hg.kind n (h.sound.idx_lt_of_mem List.mem_cons_self)

theorem minor (h : Writing O r st₀ n st) (hm : Minor st st₁) : Writing O r st₀ n st₁ :=
  h.step (hm.sound h.sound) hm.builder.grows hm.out

theorem added {r' : Role} (h : Writing O r st₀ n st) (ha : Added (n :: O) r' st st₁) :
    Writing O r st₀ n st₁ :=
  h.step ha.sound ha.grows ha.out

theorem wrote {r' : Role} {m : NodeId} (h : Writing O r st₀ n st) (hw : Wrote (n :: O) r' st m st₁) :
    Writing O r st₀ n st₁ :=
  h.step hw.sound hw.grows hw.out

end Writing

namespace Inside

theorem step (h : Inside O r st₀ n st) (hs : Sound (n :: O) st₁) (hg : Grows st.builder st₁.builder)
    (ho : ∃ s, st₁.out = st.out ++ s) : Inside O r st₀ n st₁ :=
  ⟨h.toWriting.step hs hg ho,
    by rw [hg.kind n (h.sound.idx_lt_of_mem List.mem_cons_self)]; exact h.plain⟩

theorem minor (h : Inside O r st₀ n st) (hm : Minor st st₁) : Inside O r st₀ n st₁ :=
  h.step (hm.sound h.sound) hm.builder.grows hm.out

theorem added {r' : Role} (h : Inside O r st₀ n st) (ha : Added (n :: O) r' st st₁) :
    Inside O r st₀ n st₁ :=
  h.step ha.sound ha.grows ha.out

theorem wrote {r' : Role} {m : NodeId} (h : Inside O r st₀ n st) (hw : Wrote (n :: O) r' st m st₁) :
    Inside O r st₀ n st₁ :=
  h.step hw.sound hw.grows hw.out

end Inside

/-! ### Lists in parentheses -/

/-- A list of role `r` under the innermost of `O` that began at the end of `base`: its first
element starts there and its last ends the text, or it has no element and the text is `base`. -/
def ListFrom (O : List NodeId) (r : Role) (base : String) (st : RenderState) : Prop :=
  ∀ p ∈ O.head?, (st.builder.view.childrenWithRole p r = [] → st.out = base) ∧
    (∀ a ∈ (st.builder.view.childrenWithRole p r).head?,
      (st.builder.view.range a).start = Text.byteSize base.toList) ∧
    ∀ z ∈ (st.builder.view.childrenWithRole p r).getLast?,
      (st.builder.view.range z).stop = Text.byteSize st.out.toList

/-- A list of role `r` written in parentheses under the innermost of `O`: the text grew by `(`,
some `mid` and `)`; the first element starts right after the `(` and the last ends right at the
`)`, and `mid` is empty when there is no element. -/
def InParens (O : List NodeId) (r : Role) (st st' : RenderState) : Prop :=
  ∃ mid, st'.out = st.out ++ ("(" ++ mid ++ ")") ∧ ∀ p ∈ O.head?,
    (st'.builder.view.childrenWithRole p r = [] → mid = "") ∧
    (∀ a ∈ (st'.builder.view.childrenWithRole p r).head?,
      (st'.builder.view.range a).start = Text.byteSize st.out.toList + 1) ∧
    ∀ z ∈ (st'.builder.view.childrenWithRole p r).getLast?,
      (st'.builder.view.range z).stop = Text.byteSize (st.out ++ "(" ++ mid).toList

theorem ListFrom.of_noList (hn : NoList O r st) : ListFrom O r st.out st := fun p hp => by
  rw [hn p hp]
  simp

/-- One more element, after a separator that is written only once the list has begun. -/
theorem ListFrom.wrote {base : String} (h : ListFrom O r base st) (hs : Sound O st)
    (hm : Minor st st₁) (hsep : NoList O r st → st₁.out = st.out) (hw : Wrote O r st₁ n st₂) :
    ListFrom O r base st₂ := by
  intro p hp
  obtain ⟨hemp, hhead, -⟩ := h p hp
  rw [hw.childrenWithRole_eq (hm.sound hs) hp, hm.builder.childrenWithRole p r]
  refine ⟨fun he => absurd he (by simp), fun a ha => ?_, fun z hz => ?_⟩
  · cases hL : st.builder.view.childrenWithRole p r with
    | nil =>
      -- the first element, with nothing written before it
      rw [hL, List.nil_append, List.head?_singleton, Option.mem_some_iff] at ha
      subst ha
      have hnl : NoList O r st := fun p' hp' => by
        obtain rfl : p' = p := Option.some.inj (hp'.symm.trans hp)
        exact hL
      rw [hw.start, hsep hnl, hemp hL]
    | cons b L =>
      -- the first element stays where it started
      rw [hL, List.cons_append, List.head?_cons, Option.mem_some_iff] at ha
      subst ha
      have hb : b ∈ st₁.builder.view.children p := by
        rw [← hm.builder.childrenWithRole p r] at hL
        exact List.mem_of_mem_filter (hL ▸ List.mem_cons_self)
      rw [hw.grows.start b ((hm.sound hs).placed.idx_lt_of_mem_children hb),
        (hm.builder.node b).2.1]
      exact hhead b (by rw [hL]; rfl)
  · rw [List.getLast?_append, List.getLast?_singleton, Option.some_or, Option.mem_some_iff] at hz
    subst hz
    exact hw.stop

/-- A list that began right after a `(`, followed by a `)`. -/
theorem InParens.of_listFrom {stL : RenderState} {mid : String}
    (hout : stL.out = st.out ++ "(" ++ mid) (h : ListFrom O r (st.out ++ "(") stL)
    (hm : Minor stL st₁) (hclose : st₁.out = stL.out ++ ")") : InParens O r st st₁ := by
  refine ⟨mid, by rw [hclose, hout]; simp [String.append_assoc], fun p hp => ?_⟩
  obtain ⟨hemp, hhead, hlast⟩ := h p hp
  rw [hm.builder.childrenWithRole p r]
  refine ⟨fun he => ?_, fun a ha => ?_, fun z hz => ?_⟩
  · have := congrArg String.toList ((hemp he).symm.trans hout)
    simpa using this
  · rw [(hm.builder.node a).2.1, hhead a ha]
    simp only [String.toList_append, Text.byteSize_append]
    rfl
  · rw [(hm.builder.node z).2.1, hlast z hz, hout]

/-- Opening a node that is no simple name: it is being written, with no child yet. -/
theorem spec_start_writing {k : SyntaxKind} (hk : k ≠ .simpleName) :
    Spec (Ready O r) (start k r) fun st n st' => Writing O r st n st' ∧
      st'.builder.view.kind n = k ∧ Fresh st'.builder st'.out ∧ (∀ r', NoList (n :: O) r' st') ∧
      st'.out = st.out ∧ pendingWeight st' = pendingWeight st := by
  intro ctx st h
  obtain ⟨hn, hst⟩ := spec_start k r ctx st h
  rw [hn, hst]
  have hinv := h.sound.placed.inv
  have hcur := hinv.current_lt
  have hkind : (st.builder.startNode k r (Text.byteSize st.out.toList)).1.view.kind
      ⟨st.builder.nodes.size⟩ = k := by
    rw [view_kind_startNode k r _ hcur, if_pos rfl]
  refine ⟨⟨h.sound.startNode h.ne_nil hk h.fresh h.listReady, grows_startNode hinv k r _,
    fun p hp => ?_, ?_, by rw [hkind]; exact hk, ⟨"", by simp⟩, ?_⟩, hkind,
    fresh_startNode hinv k r _ _, fun r' p hp => ?_, rfl, rfl⟩
  · show (st.builder.startNode k r _).1.view.children p = _
    rw [view_children_startNode k r _ hcur, if_pos (h.sound.current_eq.trans hp)]
  · show (st.builder.startNode k r _).1.view.role _ = r
    rw [view_role_startNode k r _ hcur, if_pos rfl]
  · show ((st.builder.startNode k r _).1.view.range _).start = _
    rw [view_range_startNode k r _ hcur, if_pos rfl]
    rfl
  · -- the new node has no child yet
    have hp' : p = ⟨st.builder.nodes.size⟩ := (Option.some.inj hp).symm
    subst hp'
    show ((st.builder.startNode k r _).1.view.children _).filter _ = []
    rw [children_startNode_self k r _ hcur ⟨st.builder.nodes.size⟩ rfl]
    rfl

/-- Opening a node that is no simple name and has no frame: it is being written, with no child
yet. -/
theorem spec_start_inside {k : SyntaxKind} (hk : k ≠ .simpleName ∧ k.parenList? = none) :
    Spec (Ready O r) (start k r) fun st n st' => Inside O r st n st' ∧
      Fresh st'.builder st'.out ∧ (∀ r', NoList (n :: O) r' st') ∧ st'.out = st.out ∧
      pendingWeight st' = pendingWeight st :=
  (spec_start_writing hk.1).mono fun _ _ _ _ ⟨hw, hkind, hf, hn, ho, hp⟩ =>
    ⟨⟨hw, hkind ▸ hk.2⟩, hf, hn, ho, hp⟩

/-- Closing the node being written at the end of the text, where it has its frame: it is
written. -/
theorem Writing.finish (h : Writing O r st₀ n st)
    (hframe : (st.builder.modify n (Node.closedAt (Text.byteSize st.out.toList))).view.Framed
      st.out.toList n) :
    Spec (· = st) finish fun _ m st' => m = n ∧ Wrote O r st₀ n st' ∧
      st'.builder.view.kind n = st.builder.view.kind n ∧ st'.out = st.out ∧
      pendingWeight st' = pendingWeight st := by
  intro ctx s hs
  rw [hs]
  obtain ⟨hm, hst⟩ := spec_finish ctx st rfl n O h.sound.stack
  rw [hm, hst]
  have hn : n.idx < st.builder.nodes.size := h.sound.idx_lt_of_mem List.mem_cons_self
  have hb := h.sound.placed.bounded n hn
  refine ⟨rfl, ⟨h.sound.finishNode hframe,
    h.grows.trans (grows_closedAt _ _ _ h.sound.stack), fun p hp => ?_, ?_, ?_, h.out, ?_⟩,
    view_kind_closedAt _ _ _ n, rfl, rfl⟩
  · exact (view_children_closedAt _ _ _ p).trans (h.children p hp)
  · exact (@view_field_modify st.builder _ Node.role (Node.closedAt _) (fun _ => rfl) n n).trans
      h.role
  · show ((st.builder.modify n (Node.closedAt _)).view.range n).stop = _
    rw [view_range_closedAt_self _ hn]
    exact Nat.max_eq_left (hb.1.trans hb.2)
  · show ((st.builder.modify n (Node.closedAt _)).view.range n).start = _
    rw [view_start_closedAt]
    exact h.start

/-- The children of the innermost open node are closed: growing keeps their role and range. -/
theorem Sound.kept_child (hs : Sound (n :: O) st) (hg : Grows st.builder st₁.builder) {c : NodeId}
    (hc : c ∈ st.builder.view.children n) :
    st₁.builder.view.role c = st.builder.view.role c ∧
      st₁.builder.view.range c = st.builder.view.range c := by
  have hlt := hs.placed.idx_lt_of_mem_children hc
  exact ⟨hg.role c hlt, (hg.closed c hlt (hs.not_mem_openNodes hs.current_eq hc)).2⟩

/-- Closing the node being written keeps the ranges of its children. -/
theorem Writing.range_closedAt_child (h : Writing O r st₀ n st) (q : Nat) {c : NodeId}
    (hc : c ∈ st.builder.view.children n) :
    (st.builder.modify n (Node.closedAt q)).view.range c = st.builder.view.range c :=
  st.builder.view_range_closedAt_ne (fun he => h.sound.not_mem_openNodes h.sound.current_eq hc
    (by rw [← he, h.sound.stack]; exact List.mem_cons_self)) q

/-- A node being written whose list of role `rl` was written in parentheses right after the
name or type `x` ending its header, and followed only by children of a role that is neither a
name, nor a type, nor `rl`: closed at the end of the text, it has its frame. -/
theorem Writing.framed_of_inParens (h : Writing O r st₀ n st) {rl rx rpost : Role}
    (hk : (st.builder.view.kind n).parenList? = some rl) (hrl : rl ≠ .name ∧ rl ≠ .type)
    {stX stA stB : RenderState} {x : NodeId} (hA : Writing O r st₀ n stA)
    (hx : Wrote (n :: O) rx stX x stA) (hrx : rx = .name ∨ rx = .type)
    (hnl : NoList (n :: O) rl stA) (hL : Added (n :: O) rl stA stB)
    (hp : InParens (n :: O) rl stA stB) (hpost : Added (n :: O) rpost stB st)
    (hrp : rpost ≠ rl ∧ rpost ≠ .name ∧ rpost ≠ .type) :
    (st.builder.modify n (Node.closedAt (Text.byteSize st.out.toList))).view.Framed
      st.out.toList n := by
  intro r' hr'
  rw [view_kind_closedAt, hk] at hr'
  obtain rfl := Option.some.inj hr'
  set T := (st.builder.modify n (Node.closedAt (Text.byteSize st.out.toList))).view with hT
  -- the children of `n`: the header up to `x`, the list `nsL`, then `nsP`
  have hchA := hx.children n rfl
  obtain ⟨nsL, hrL, hchL, hwL⟩ := hL.childrenWithRole_eq hA.sound rfl rl
  rw [hnl n rfl, List.nil_append, List.filter_eq_self.2 fun c hc => by simp [(hrL c hc).1]] at hwL
  obtain ⟨nsP, hchP, hrP⟩ := hpost.children n rfl
  have hchT : T.children n = stX.builder.view.children n ++ x :: (nsL ++ nsP) := by
    rw [hT, view_children_closedAt, hchP, hchL, hchA]
    simp
  -- the parentheses, where the list put them
  obtain ⟨mid, hout, hpar⟩ := hp
  obtain ⟨hemp, hfst, hlst⟩ := hpar n rfl
  rw [hwL] at hemp hfst hlst
  obtain ⟨s, hs⟩ := hpost.out
  have hQ : Text.byteSize stB.out.toList = Text.byteSize (stA.out ++ "(" ++ mid).toList + 1 := by
    rw [hout]
    simp only [String.toList_append, Text.byteSize_append, List.append_assoc]
    rfl
  -- every child keeps in `T` the role and range it had when its part of the text was written
  have hkeepA : ∀ c ∈ stA.builder.view.children n,
      T.role c = stA.builder.view.role c ∧ T.range c = stA.builder.view.range c := fun c hc => by
    have hc' := (hL.grows.trans hpost.grows).children n |>.subset hc
    rw [hT, view_role_closedAt, h.range_closedAt_child _ hc']
    exact hA.sound.kept_child (hL.grows.trans hpost.grows) hc
  have hkeepB : ∀ c ∈ stB.builder.view.children n,
      T.role c = stB.builder.view.role c ∧ T.range c = stB.builder.view.range c := fun c hc => by
    rw [hT, view_role_closedAt, h.range_closedAt_child _ (hpost.grows.children n |>.subset hc)]
    exact hL.sound.kept_child hpost.grows hc
  have hxA : x ∈ stA.builder.view.children n := by simp [hchA]
  have hLB : ∀ c ∈ nsL, c ∈ stB.builder.view.children n := fun c hc => by simp [hchL, hc]
  have happ : (T.children n).IsChain fun a c => a ∉ O ∧ (T.range a).stop < (T.range c).start :=
    h.sound.toShape.finishNode.apart n
  -- the list is a stretch of the children, so apart as they are
  have hchainL : nsL.IsChain fun a c => a ∉ O ∧ (T.range a).stop < (T.range c).start :=
    List.IsChain.infix happ ⟨stX.builder.view.children n ++ [x], nsP, by simp [hchT]⟩
  refine SyntaxTree.listInParens_of_split hchT hrl
    ⟨by rw [(hkeepA x hxA).1, hx.role]; exact hrx, by rw [(hkeepA x hxA).2, hx.stop]⟩
    (fun c hc => ?_) (fun c hc => by rw [(hkeepB c (hLB c hc)).1]; exact (hrL c hc).1)
    (fun c hc => ?_) (hchainL.imp fun _ _ h => h.2)
    (fun c hc => by
      rw [(hkeepB c (hLB c hc)).2]
      exact (hL.sound.placed.bounded c (hL.sound.placed.idx_lt_of_mem_children (hLB c hc))).1)
    (fun he => by simp [hemp he]; rfl) (fun a ha => ?_) (fun z hz => ?_)
    ⟨stA.out.toList, mid.toList ++ ')' :: s.toList, by rw [hs, hout]; simp, rfl⟩
    ⟨(stA.out ++ "(" ++ mid).toList, s.toList, by rw [hs, hout]; simp, rfl⟩ ?_ ?_
  · -- the header: closed before the `(`, none of the list's role
    rw [← hchA] at hc
    refine ⟨fun hrc => ?_, ?_⟩
    · have hnil := hnl n rfl
      unfold SyntaxTree.childrenWithRole at hnil
      exact absurd (by rw [← (hkeepA c hc).1, hrc]; simp) (List.filter_eq_nil_iff.1 hnil c hc)
    · rw [(hkeepA c hc).2]
      exact (hA.sound.placed.bounded c (hA.sound.placed.idx_lt_of_mem_children hc)).2
  · -- what follows the list, after the `)`
    have hc' : c ∈ st.builder.view.children n := by simp [hchP, hc]
    rw [hT, view_role_closedAt, h.range_closedAt_child _ hc', (hrP c hc).1]
    refine ⟨hrp.1, hrp.2.1, hrp.2.2, ?_⟩
    have := (hrP c hc).2
    omega
  · rw [(hkeepB a (hLB a (List.mem_of_mem_head? ha))).2]
    exact hfst a ha
  · rw [(hkeepB z (hLB z (List.mem_of_mem_getLast? hz))).2]
    exact hlst z hz
  · rw [hT, view_start_closedAt, h.start]
    exact byteSize_le_of_out hA.out
  · rw [hT, view_range_closedAt_self _ (h.sound.idx_lt_of_mem List.mem_cons_self)]
    have := byteSize_le_of_out ⟨s, hs⟩
    exact lt_of_lt_of_le (by omega) (le_max_left _ _)

/-- Closing the node being written, which has no frame, at the end of the text: it is written
and keeps its kind. -/
theorem Inside.finish_kind (h : Inside O r st₀ n st) :
    Spec (· = st) finish fun _ m st' => m = n ∧ Wrote O r st₀ n st' ∧
      st'.builder.view.kind n = st.builder.view.kind n ∧ st'.out = st.out ∧
      pendingWeight st' = pendingWeight st :=
  h.toWriting.finish (SyntaxTree.framed_of_parenList_eq_none (by rw [view_kind_closedAt]; exact h.plain))

/-- Closing the node being written at the end of the text: it is written. -/
theorem spec_finish_inside :
    Spec (Inside O r st₀ n) finish fun st m st' => m = n ∧ Wrote O r st₀ n st' ∧
      st'.builder.view.kind n ≠ .simpleName ∧ st'.out = st.out ∧
      pendingWeight st' = pendingWeight st := by
  intro ctx st h
  obtain ⟨hm, hw, hk, ho, hp⟩ := h.finish_kind ctx st rfl
  exact ⟨hm, hw, hk ▸ h.kind, ho, hp⟩

/-- A leaf written over `s` at the end of the text, then relabelled without moving, is one node
written. -/
theorem Ready.wrote_leaf (h : Ready O r st) {k : SyntaxKind} {s : String} {b' : TreeBuilder}
    (hs : Layout O b' (st.out ++ s))
    (hg : Grows (st.builder.leaf k r
      ⟨Text.byteSize st.out.toList, Text.byteSize (st.out ++ s).toList⟩).1 b')
    (hn : ∀ m, b'.view.range m = (st.builder.leaf k r
        ⟨Text.byteSize st.out.toList, Text.byteSize (st.out ++ s).toList⟩).1.view.range m ∧
      b'.view.children m = (st.builder.leaf k r
        ⟨Text.byteSize st.out.toList, Text.byteSize (st.out ++ s).toList⟩).1.view.children m) :
    Wrote O r st ⟨st.builder.nodes.size⟩ { st with out := st.out ++ s, builder := b' } := by
  have hcur := h.sound.placed.inv.current_lt
  have hac := Text.byteSize_le_append st.out s
  refine ⟨hs, (grows_leaf h.sound.placed.inv k r _).trans hg, fun p hp => ?_, ?_, ?_, ⟨s, rfl⟩, ?_⟩
  · show b'.view.children p = _
    rw [(hn p).2, view_children_leaf hcur, if_pos (h.sound.current_eq.trans hp)]
  · show b'.view.role _ = r
    rw [hg.role _ (by rw [leaf_size]; exact Nat.lt_succ_self _), view_role_leaf hcur k r hac,
      if_pos rfl]
  · show (b'.view.range _).stop = _
    rw [(hn _).1, view_range_leaf hcur k r hac, if_pos rfl]
  · show (b'.view.range _).start = _
    rw [(hn _).1, view_range_leaf hcur k r hac, if_pos rfl]

/-- A leaf that is no simple name and has no frame is one node written. -/
theorem spec_leaf_wrote {k : SyntaxKind} (hk : k ≠ .simpleName ∧ k.parenList? = none) (s : String) :
    Spec (Ready O r) (leaf k r s) fun st n st' =>
      Wrote O r st n st' ∧ st'.builder.view.kind n = k ∧ pendingWeight st' = pendingWeight st := by
  intro ctx st h
  obtain ⟨hn, hst⟩ := spec_leaf k r s ctx st h
  rw [hn, hst]
  exact ⟨h.wrote_leaf (h.sound.leaf h.ne_nil k r s h.fresh h.listReady
    (fun hk' => absurd hk' hk.1) hk.2) (.refl _) fun _ => ⟨rfl, rfl⟩,
    by rw [view_kind_leaf h.sound.placed.inv.current_lt k r (Text.byteSize_le_append _ _), if_pos rfl],
    rfl⟩

/-- A simple name written as a leaf and given its text as identifier is one node written, after
which the rendering goes on. -/
theorem spec_leaf_named_then {β : Type} {k : NodeId → RenderM β} {R : β → RenderState → Prop}
    (h : Ready O r st) (s : String)
    (hk : ∀ n st₁, Wrote O r st n st₁ → st₁.builder.view.kind n = .simpleName →
      pendingWeight st₁ = pendingWeight st → Spec (· = st₁) (k n) fun _ b st₂ => R b st₂) :
    Spec (· = st) (leaf .simpleName r s >>= fun n => setIdentifier n s >>= fun _ => k n)
      fun _ b st₂ => R b st₂ := by
  refine Spec.bind (spec_leaf _ _ _) ?_
  rintro _ _ _ rfl ⟨rfl, rfl⟩
  refine Spec.bind (spec_onBuilder _) ?_
  rintro _ _ _ rfl rfl
  refine hk _ _ (h.wrote_leaf (h.sound.leaf_named h.ne_nil _ _ h.fresh h.listReady)
    (@grows_modify _ _ (fun nd => { nd with identifier := some s }) (fun _ => rfl) (fun _ => rfl)
      (fun _ => rfl) (fun _ => rfl))
    fun m => ⟨@view_field_modify _ _ Node.range (fun nd => { nd with identifier := some s })
        (fun _ => rfl) _ m,
      @view_field_modify _ _ (fun nd => nd.children.toList) (fun nd => { nd with identifier := some s })
        (fun _ => rfl) _ m⟩)
    (by rw [view_kind_setIdentifier, view_kind_leaf h.sound.placed.inv.current_lt .simpleName r
      (Text.byteSize_le_append _ _), if_pos rfl]) rfl

/-- Changing only data after writing a node of kind `k` keeps it written. -/
theorem Wrote.then_retouchAt (hw : Wrote O r st n st₁) {k : SyntaxKind}
    (hk : st₁.builder.view.kind n = k) {x : RenderM NodeId} (hx : RetouchToAt n k x n) :
    Spec (· = st₁) x fun _ b st₂ => b = n ∧ Wrote O r st n st₂ ∧ Retouch st₁ st₂ := by
  intro ctx s hs
  rw [hs]
  obtain ⟨hb, hr⟩ := hx ctx st₁ hk
  exact ⟨hb, hw.retouch hr, hr⟩

/-- Changing only data after writing a node keeps it written. -/
theorem Wrote.then_retouch (hw : Wrote O r st n st₁) {x : RenderM NodeId} (hx : RetouchTo x n) :
    Spec (· = st₁) x fun _ b st₂ => b = n ∧ Wrote O r st n st₂ ∧ Retouch st₁ st₂ :=
  hw.then_retouchAt rfl (hx.at _ _)

theorem Retouch.pendingWeight_eq (h : Retouch st st₁) : pendingWeight st₁ = pendingWeight st := by
  rw [pendingWeight, h.pending, pendingWeight]

/-! ### Names and types -/

/-- A name is one node written. -/
theorem spec_name (r : Role) (x : NameRef) :
    Spec (Ready O r) (name r x) fun st n st' =>
      Wrote O r st n st' ∧ pendingWeight st' = pendingWeight st := by
  refine Spec.bind (spec_read fun _ _ => rfl) ?_
  rintro st tb _ h rfl
  refine spec_leaf_named_then h _ fun nd st₁ hw hk hp => (hw.then_retouchAt hk ?_).mono ?_
  · -- the binding and type of the name change only its data; a name declares nothing
    split
    · refine RetouchToAt.setBinding_bind (Binding.fitsKind_of_not_declaration rfl _) fun _ => ?_
      split
      · exact retouchTo_pure _
      · refine (retouching_typeOf _).bind fun _ => ?_
        split
        · exact (retouching_setTypeBinding _ _).bind fun _ => retouchTo_pure _
        · exact retouchTo_pure _
    · exact (retouchTo_pure _).at _ _
  · rintro _ _ _ rfl ⟨rfl, hw', hr⟩
    exact ⟨hw', hr.pendingWeight_eq.trans hp⟩

theorem spec_boundName (r : Role) (x : Binding) :
    Spec (Ready O r) (boundName r x) fun st n st' =>
      Wrote O r st n st' ∧ pendingWeight st' = pendingWeight st :=
  spec_name r _

/-- A type is one node written. -/
theorem spec_typeRef (r : Role) (t : TypeId) :
    Spec (Ready O r) (typeRef r t) fun st n st' =>
      Wrote O r st n st' ∧ pendingWeight st' = pendingWeight st := by
  refine Spec.bind (spec_read fun _ _ => rfl) ?_
  rintro st tb _ h rfl
  refine Spec.bind ((spec_leaf_wrote (by split <;> decide) _).at_ h) ?_
  rintro _ nd st₁ rfl ⟨hw, hk, hp⟩
  -- a type names a type and declares nothing
  refine (hw.then_retouchAt hk (RetouchToAt.setBinding_bind
    (Binding.fitsKind_of_not_declaration (by split <;> rfl) _) fun _ =>
    (retouching_setTypeBinding _ _).bind fun _ => retouchTo_pure nd)).mono ?_
  rintro _ _ _ rfl ⟨rfl, hw', hr⟩
  exact ⟨hw', hr.pendingWeight_eq.trans hp⟩

/-! ### Text, indentation and modifiers -/

/-- From each state of `P`: a specification proved one state at a time. -/
theorem Spec.of_at {α : Type} {P : RenderState → Prop} {x : RenderM α}
    {Q : RenderState → α → RenderState → Prop}
    (h : ∀ st, P st → Spec (· = st) x fun _ a st' => Q st a st') : Spec P x Q :=
  fun ctx st hP => h st hP ctx st rfl

theorem Minor.noList (h : Minor st st₁) (hn : NoList O r st) : NoList O r st₁ :=
  fun p hp => (h.builder.childrenWithRole p r).trans (hn p hp)

/-- Text keeps the layout; text that is not empty leaves the end past every node. -/
theorem spec_text_fresh {s : String} (hs : s ≠ "") :
    Spec (Sound O) (text s) fun st _ st' => Minor st st' ∧ Fresh st'.builder st'.out :=
  fun _ st h => ⟨minor_text st s, fresh_text h hs⟩

theorem spec_text_minor {P : RenderState → Prop} (s : String) :
    Spec P (text s) fun st _ st' => Minor st st' :=
  fun _ st _ => minor_text st s

/-- A line break ends past every node. -/
theorem spec_newline_fresh :
    Spec (Sound O) newline fun st _ st' => Minor st st' ∧ Fresh st'.builder st'.out := by
  intro ctx st h
  rw [spec_newline ctx st h]
  refine ⟨minor_text st _, fresh_text h fun he => ?_⟩
  have := congrArg String.toList he
  simp at this

theorem spec_indentBy {P : RenderState → Prop} (d : Int) :
    Spec P (indentBy d) fun st _ st' => Minor st st' :=
  fun _ _ _ => ⟨.refl _, rfl, "", String.append_empty.symm⟩

theorem spec_modifiersText {P : RenderState → Prop} (m : Modifiers) :
    Spec P (modifiersText m) fun st _ st' => Minor st st' := by
  intro ctx st _
  unfold modifiersText
  split
  · exact minor_text st _
  · exact Minor.refl st

/-- Closing the node being written where it has its frame, then changing only data: the node is
written. -/
theorem Writing.finish_then (h : Writing O r st₀ n st)
    (hframe : (st.builder.modify n (Node.closedAt (Text.byteSize st.out.toList))).view.Framed
      st.out.toList n) {tail : RenderM NodeId} (ht : RetouchToAt n (st.builder.view.kind n) tail n) :
    Spec (· = st) (RenderM.finish >>= fun _ => tail) fun _ b st' =>
      b = n ∧ Wrote O r st₀ n st' ∧ pendingWeight st' = pendingWeight st := by
  refine Spec.bind (h.finish hframe) ?_
  rintro _ _ st₁ rfl ⟨-, hw, hk, -, hp⟩
  refine (hw.then_retouchAt hk ht).mono ?_
  rintro _ _ _ rfl ⟨rfl, hw', hr⟩
  exact ⟨rfl, hw', hr.pendingWeight_eq.trans hp⟩

/-- Closing the node being written, then changing only data of nodes of its kind: the node is
written. -/
theorem Inside.finish_thenAt (h : Inside O r st₀ n st) {tail : RenderM NodeId}
    (ht : RetouchToAt n (st.builder.view.kind n) tail n) :
    Spec (· = st) (finish >>= fun _ => tail) fun _ b st' =>
      b = n ∧ Wrote O r st₀ n st' ∧ pendingWeight st' = pendingWeight st :=
  h.toWriting.finish_then
    (SyntaxTree.framed_of_parenList_eq_none (by rw [view_kind_closedAt]; exact h.plain)) ht

/-- Closing the node being written, then changing only data: the node is written. -/
theorem Inside.finish_then (h : Inside O r st₀ n st) {tail : RenderM NodeId} (ht : RetouchTo tail n) :
    Spec (· = st) (finish >>= fun _ => tail) fun _ b st' =>
      b = n ∧ Wrote O r st₀ n st' ∧ pendingWeight st' = pendingWeight st :=
  h.finish_thenAt (ht.at _ _)

/-- Closing the node being written as the last step: it is written. -/
theorem Inside.finish_last (h : Inside O r st₀ n st) :
    Spec (· = st) finish fun _ b st' =>
      b = n ∧ Wrote O r st₀ n st' ∧ pendingWeight st' = pendingWeight st := by
  refine (spec_finish_inside.at_ h).mono ?_
  rintro _ _ _ rfl ⟨hb, hw, -, -, hp⟩
  exact ⟨hb, hw, hp⟩

/-- Closing the node being written, naming it, then changing only data: the node is written. -/
theorem Inside.finish_named_then (h : Inside O r st₀ n st) (s : String) {tail : RenderM NodeId}
    (ht : RetouchTo tail n) :
    Spec (· = st) (finish >>= fun _ => setIdentifier n s >>= fun _ => tail) fun _ b st' =>
      b = n ∧ Wrote O r st₀ n st' ∧ pendingWeight st' = pendingWeight st := by
  refine Spec.bind (spec_finish_inside.at_ h) ?_
  rintro _ _ st₁ rfl ⟨-, hw, hk, -, hp⟩
  refine Spec.bind (spec_setIdentifier s fun _ he => he ▸ hk) ?_
  rintro _ _ st₂ rfl hr₂
  refine ((hw.retouch hr₂).then_retouch ht).mono ?_
  rintro _ _ _ rfl ⟨rfl, hw', hr⟩
  exact ⟨rfl, hw', (hr.pendingWeight_eq.trans hr₂.pendingWeight_eq).trans hp⟩

/-- Text written inside a node being written keeps it so; text that is not empty leaves the end
past its children. -/
theorem Inside.text_fresh (h : Inside O r st₀ n st) {s : String} (hs : s ≠ "") :
    Spec (· = st) (text s) fun _ _ st' => Inside O r st₀ n st' ∧ Fresh st'.builder st'.out ∧
      pendingWeight st' = pendingWeight st := by
  rintro _ _ rfl
  exact ⟨h.minor (minor_text _ s), fresh_text h.sound hs, (minor_text _ s).pendingWeight_eq⟩

theorem append_ne_empty (s : String) {t : String} (ht : t ≠ "") : s ++ t ≠ "" := fun he => by
  have := congrArg String.length he
  simp at this
  exact ht this.2

/-- Inside a node being written, an end past its children lets any child be written. -/
theorem Writing.ready (h : Writing O r st₀ n st) (hf : Fresh st.builder st.out) {r' : Role}
    (hl : ListReady r' st.builder st.out) : Ready (n :: O) r' st :=
  ⟨h.sound, List.cons_ne_nil _ _, hf, hl⟩

end RenderM

end QuickFix.Outline
