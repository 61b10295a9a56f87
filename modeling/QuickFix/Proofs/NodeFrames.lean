import QuickFix.Proofs.BuilderLayout

/-!
# Frames of nodes

Some nodes hold a list in parentheses that belong to their own text: a call and an instance
creation their arguments, a method its parameters. This module says where those parentheses
stand (`SyntaxTree.ListInParens`): `(` right before the list's first element and `)` right
after its last, or `()` right after the node's header when the list is empty.

`SyntaxTree.Framed` asks this of a node by its kind. It reads only the node's kind, range and
children and the roles and ranges of the children, and the text only at the parentheses, so it
survives text written after them and changes to other nodes (`SyntaxTree.framed_congr`,
`SyntaxTree.Framed.append`).
-/

namespace QuickFix

open Text

/-! ### Single characters of a text -/

namespace Text

/-- The character at byte offset `k` of `cs` is `c`. -/
def CharAt (cs : List Char) (k : Nat) (c : Char) : Prop :=
  ∃ pre suf, cs = pre ++ c :: suf ∧ byteSize pre = k

variable {cs : List Char} {k : Nat} {c : Char}

theorem CharAt.isCharBoundary (h : CharAt cs k c) : IsCharBoundary cs k := by
  obtain ⟨pre, suf, rfl, rfl⟩ := h
  exact ⟨pre, c :: suf, rfl, rfl⟩

/-- After a one-byte character comes another boundary. -/
theorem CharAt.isCharBoundary_succ (h : CharAt cs k c) (hc : c.utf8Size = 1) :
    IsCharBoundary cs (k + 1) := by
  obtain ⟨pre, suf, rfl, rfl⟩ := h
  exact ⟨pre ++ [c], suf, by simp, by simp [hc]⟩

theorem CharAt.append (h : CharAt cs k c) (more : List Char) : CharAt (cs ++ more) k c := by
  obtain ⟨pre, suf, rfl, rfl⟩ := h
  exact ⟨pre, suf ++ more, by simp, rfl⟩

theorem CharAt.sliceBytes (h : CharAt cs k c) (hc : c.utf8Size = 1) :
    sliceBytes cs k (k + 1) = [c] := by
  obtain ⟨pre, suf, rfl, rfl⟩ := h
  have hsize : 1 = byteSize [c] := by simp [hc]
  rw [Text.sliceBytes, dropBytes_append_byteSize, Nat.add_sub_cancel_left,
    show (c :: suf) = [c] ++ suf from rfl, hsize, takeBytes_append_byteSize]

/-- Searching forwards from a one-byte character that matches finds it first. -/
theorem CharAt.findByte_sliceBytes {p : Char → Bool} (h : CharAt cs k c) (hp : p c = true)
    (hc : c.utf8Size = 1) {stop : Nat} (hk : k < stop) :
    findByte p (Text.sliceBytes cs k stop) = some 0 := by
  obtain ⟨pre, suf, rfl, rfl⟩ := h
  obtain ⟨m, hm⟩ : ∃ m, stop - byteSize pre = m + 1 := ⟨stop - byteSize pre - 1, by omega⟩
  rw [Text.sliceBytes, dropBytes_append_byteSize, hm, takeBytes, splitBytes,
    if_pos (by rw [hc]; omega)]
  simp [findByte, hp]

theorem rfindByte_go_append_singleton (p : Char → Bool) (hc : p c = true) :
    ∀ (l : List Char) (pos : Nat) (found : Option Nat),
      rfindByte.go p pos found (l ++ [c]) = some (pos + byteSize l)
  | [], pos, found => by simp [rfindByte.go, hc]
  | d :: l, pos, found => by
    rw [List.cons_append, rfindByte.go, rfindByte_go_append_singleton p hc l, byteSize_cons,
      Nat.add_assoc]

/-- Searching backwards from just after a one-byte character that matches finds it first. -/
theorem CharAt.rfindByte_takeBytes {p : Char → Bool} (h : CharAt cs k c) (hp : p c = true)
    (hc : c.utf8Size = 1) : rfindByte p (takeBytes cs (k + 1)) = some k := by
  obtain ⟨pre, suf, rfl, rfl⟩ := h
  have hsize : byteSize pre + 1 = byteSize (pre ++ [c]) := by simp [hc]
  rw [hsize, show pre ++ c :: suf = (pre ++ [c]) ++ suf by simp, takeBytes_append_byteSize,
    rfindByte, rfindByte_go_append_singleton p hp pre 0 none, Nat.zero_add]

end Text


/-! ### Where a list's parentheses stand -/

namespace SyntaxTree

variable (t : SyntaxTree)

/-- Where a node's header ends: at the stop of its last child that is a name or a type, or at the
node's start when it has none. -/
def headerEnd (o : NodeId) : Nat :=
  (((t.children o).filter fun c => t.role c == .name || t.role c == .type).getLast?.map
    fun c => (t.range c).stop).getD (t.range o).start

/-- The offset of the parenthesis that opens a node's list of role `r`: right before the list's
first element, or right after the node's header when the list is empty. -/
def listOpening (o : NodeId) (r : Role) : Nat :=
  match t.childrenWithRole o r with
  | [] => t.headerEnd o
  | a :: _ => (t.range a).start - 1

/-- The offset of the parenthesis that closes it: right after the list's last element, or right
after the opening one when the list is empty. -/
def listClosing (o : NodeId) (r : Role) : Nat :=
  match (t.childrenWithRole o r).getLast? with
  | none => t.headerEnd o + 1
  | some z => (t.range z).stop

/-- In the text `cs`, the list of role `r` of node `o` stands in parentheses: `(` right before
its first element and `)` right after its last, or `()` right after the node's header when it is
empty; the parentheses lie within the node, the elements between them, and every other child of
the node before the `(` or after the `)`. -/
structure ListInParens (cs : List Char) (o : NodeId) (r : Role) : Prop where
  opens : CharAt cs (t.listOpening o r) '('
  closes : CharAt cs (t.listClosing o r) ')'
  start_le : (t.range o).start ≤ t.listOpening o r
  lt_stop : t.listClosing o r < (t.range o).stop
  inside : ∀ c ∈ t.childrenWithRole o r,
    t.listOpening o r < (t.range c).start ∧ (t.range c).stop ≤ t.listClosing o r
  outside : ∀ c ∈ t.children o, t.role c ≠ r →
    (t.range c).stop ≤ t.listOpening o r ∨ t.listClosing o r < (t.range c).start

end SyntaxTree

/-! ### A list written right after the header -/

/-- In a chain of ranges apart, each element starts no earlier than the first and stops no later
than the last. -/
theorem SyntaxTree.range_between_of_isChain {t : SyntaxTree} {L : List NodeId}
    (hchain : L.IsChain fun a c => (t.range a).stop < (t.range c).start)
    (hle : ∀ c ∈ L, (t.range c).start ≤ (t.range c).stop) :
    ∀ c ∈ L, (∀ a ∈ L.head?, (t.range a).start ≤ (t.range c).start) ∧
      ∀ z ∈ L.getLast?, (t.range c).stop ≤ (t.range z).stop := by
  induction L with
  | nil => simp
  | cons a L ih =>
    have ih' := ih hchain.tail fun c hc => hle c (List.mem_cons_of_mem a hc)
    intro c hc
    cases L with
    | nil =>
      obtain rfl := List.mem_singleton.1 hc
      simp
    | cons b L =>
      have hab := List.isChain_cons_cons.1 hchain
      have hb := ih' b List.mem_cons_self
      rcases List.mem_cons.1 hc with rfl | hc
      · refine ⟨by simp, fun z hz => ?_⟩
        rw [List.getLast?_cons_cons] at hz
        have := hb.2 z hz
        have := hle b (List.mem_cons_of_mem _ List.mem_cons_self)
        omega
      · obtain ⟨h₁, h₂⟩ := ih' c hc
        refine ⟨fun a' ha' => ?_, fun z hz => h₂ z (by rwa [List.getLast?_cons_cons] at hz)⟩
        obtain rfl := Option.some.inj ha'
        have := h₁ b rfl
        have := hle _ List.mem_cons_self
        omega

namespace SyntaxTree

variable {t : SyntaxTree} {cs : List Char} {n : NodeId} {r : Role}

/-- A node whose children are a header ending with a name or a type `x`, then the list `L` of
role `r`, then children of other roles: the list stands in parentheses when `(` stands where `x`
and every child before it end, `)` stands before every child after the list, and the list lies
right inside them, or nothing lies between them when it is empty. -/
theorem listInParens_of_split {pre L post : List NodeId} {x : NodeId} {P Q : Nat}
    (hch : t.children n = pre ++ x :: (L ++ post))
    (hr : r ≠ .name ∧ r ≠ .type)
    (hx : (t.role x = .name ∨ t.role x = .type) ∧ (t.range x).stop = P)
    (hpre : ∀ c ∈ pre ++ [x], t.role c ≠ r ∧ (t.range c).stop ≤ P)
    (hrole : ∀ c ∈ L, t.role c = r)
    (hpost : ∀ c ∈ post, t.role c ≠ r ∧ t.role c ≠ .name ∧ t.role c ≠ .type ∧
      Q < (t.range c).start)
    (hchain : L.IsChain fun a c => (t.range a).stop < (t.range c).start)
    (hle : ∀ c ∈ L, (t.range c).start ≤ (t.range c).stop)
    (hempty : L = [] → Q = P + 1) (hfirst : ∀ a ∈ L.head?, (t.range a).start = P + 1)
    (hlast : ∀ z ∈ L.getLast?, (t.range z).stop = Q)
    (hopen : CharAt cs P '(') (hclose : CharAt cs Q ')')
    (hstart : (t.range n).start ≤ P) (hstop : Q < (t.range n).stop) :
    t.ListInParens cs n r := by
  -- the list is the children of its role, and the header ends at `x`
  have hL : t.childrenWithRole n r = L := by
    rw [childrenWithRole, hch, List.filter_append, List.filter_cons, List.filter_append,
      List.filter_eq_nil_iff.2 fun c hc => by simp [(hpre c (by simp [hc])).1],
      if_neg (by simp [(hpre x (by simp)).1]), List.filter_eq_self.2 fun c hc => by simp [hrole c hc],
      List.filter_eq_nil_iff.2 fun c hc => by simp [(hpost c hc).1]]
    simp
  have hhead : t.headerEnd n = P := by
    have hfilter : (t.children n).filter (fun c => t.role c == .name || t.role c == .type) =
        pre.filter (fun c => t.role c == .name || t.role c == .type) ++ [x] := by
      have hLn : L.filter (fun c => t.role c == .name || t.role c == .type) = [] :=
        List.filter_eq_nil_iff.2 fun c hc => by simp [hrole c hc, hr.1, hr.2]
      have hpostn : post.filter (fun c => t.role c == .name || t.role c == .type) = [] :=
        List.filter_eq_nil_iff.2 fun c hc => by simp [(hpost c hc).2.1, (hpost c hc).2.2.1]
      rw [hch, List.filter_append, List.filter_cons, if_pos (by rcases hx.1 with h | h <;> simp [h]),
        List.filter_append, hLn, hpostn]
      simp
    rw [headerEnd, hfilter, List.getLast?_append_of_ne_nil _ (by simp)]
    simp [hx.2]
  have hopening : t.listOpening n r = P := by
    unfold listOpening
    rw [hL]
    cases L with
    | nil => exact hhead
    | cons a _ => simp [hfirst a rfl]
  have hclosing : t.listClosing n r = Q := by
    unfold listClosing
    rw [hL]
    cases hz : L.getLast? with
    | none => simp [hhead, hempty (List.getLast?_eq_none_iff.1 hz)]
    | some z => exact hlast z hz
  have hbetween := range_between_of_isChain hchain hle
  refine ⟨hopening ▸ hopen, hclosing ▸ hclose, hopening ▸ hstart, hclosing ▸ hstop,
    fun c hc => ?_, fun c hc hrc => ?_⟩
  · rw [hL] at hc
    rw [hopening, hclosing]
    obtain ⟨h₁, h₂⟩ := hbetween c hc
    cases L with
    | nil => cases hc
    | cons a L =>
      obtain ⟨z, hz⟩ : ∃ z, (a :: L).getLast? = some z := ⟨_, List.getLast?_cons⟩
      have := h₁ a rfl
      have := h₂ z hz
      rw [hfirst a rfl] at *
      rw [hlast z hz] at *
      omega
  · rw [hopening, hclosing]
    rw [hch] at hc
    rcases List.mem_append.1 hc with hc | hc
    · exact .inl (hpre c (List.mem_append_left _ hc)).2
    rcases List.mem_cons.1 hc with rfl | hc
    · exact .inl (hpre c (by simp)).2
    rcases List.mem_append.1 hc with hc | hc
    · exact absurd (hrole c hc) hrc
    · exact .inr (hpost c hc).2.2.2

end SyntaxTree

/-! ### Frames by kind -/

namespace SyntaxKind

/-- The role of the list a node of this kind holds in parentheses: the arguments of a call or of
an instance creation, the parameters of a method. -/
def parenList? : SyntaxKind → Option Role
  | .methodInvocation | .classInstanceCreation => some .argument
  | .methodDeclaration => some .parameter
  | _ => none

end SyntaxKind

namespace SyntaxTree

/-- The frame of a node in the text `cs`: the list its kind holds in parentheses stands in them. -/
def Framed (t : SyntaxTree) (cs : List Char) (n : NodeId) : Prop :=
  ∀ r, (t.kind n).parenList? = some r → t.ListInParens cs n r

variable {t t' : SyntaxTree} {cs : List Char} {n : NodeId} {r : Role}

theorem framed_of_parenList_eq_none (h : (t.kind n).parenList? = none) : t.Framed cs n :=
  fun r hr => by rw [h] at hr; cases hr

/-! ### What a frame reads -/

section congr

variable (hc : t'.children n = t.children n)
  (hcr : ∀ c ∈ t.children n, t'.range c = t.range c ∧ t'.role c = t.role c)
include hc hcr

theorem childrenWithRole_congr : t'.childrenWithRole n r = t.childrenWithRole n r := by
  unfold childrenWithRole
  rw [hc]
  exact List.filter_congr fun c hc' => by rw [(hcr c hc').2]

theorem headerEnd_congr (hr : t'.range n = t.range n) : t'.headerEnd n = t.headerEnd n := by
  have hfilter : (t'.children n).filter (fun c => t'.role c == .name || t'.role c == .type) =
      (t.children n).filter (fun c => t.role c == .name || t.role c == .type) := by
    rw [hc]
    exact List.filter_congr fun c hc' => by rw [(hcr c hc').2]
  unfold headerEnd
  rw [hfilter, hr]
  cases hz : ((t.children n).filter fun c => t.role c == .name || t.role c == .type).getLast? with
  | none => rfl
  | some z =>
    have hzc : z ∈ t.children n := List.mem_of_mem_filter (List.mem_of_getLast? hz)
    simp [(hcr z hzc).1]

theorem listOpening_congr (hr : t'.range n = t.range n) :
    t'.listOpening n r = t.listOpening n r := by
  unfold listOpening
  rw [childrenWithRole_congr hc hcr]
  cases hL : t.childrenWithRole n r with
  | nil => exact headerEnd_congr hc hcr hr
  | cons a _ =>
    have ha : a ∈ t.children n := List.mem_of_mem_filter (hL ▸ List.mem_cons_self)
    simp [(hcr a ha).1]

theorem listClosing_congr (hr : t'.range n = t.range n) :
    t'.listClosing n r = t.listClosing n r := by
  unfold listClosing
  rw [childrenWithRole_congr hc hcr]
  cases hz : (t.childrenWithRole n r).getLast? with
  | none => simp [headerEnd_congr hc hcr hr]
  | some z =>
    have hzc : z ∈ t.children n := List.mem_of_mem_filter (List.mem_of_getLast? hz)
    simp [(hcr z hzc).1]

/-- Two trees that agree on a node's range and children, and on the roles and ranges of those
children, place the node's list in parentheses alike. -/
theorem listInParens_congr (hr : t'.range n = t.range n) (h : t.ListInParens cs n r) :
    t'.ListInParens cs n r := by
  have ho := listOpening_congr (r := r) hc hcr hr
  have hcl := listClosing_congr (r := r) hc hcr hr
  refine ⟨ho ▸ h.opens, hcl ▸ h.closes, hr ▸ ho ▸ h.start_le, hr ▸ hcl ▸ h.lt_stop,
    fun c hc' => ?_, fun c hc' hrc => ?_⟩
  · rw [childrenWithRole_congr hc hcr] at hc'
    have hcc : c ∈ t.children n := List.mem_of_mem_filter hc'
    rw [ho, hcl, (hcr c hcc).1]
    exact h.inside c hc'
  · rw [hc] at hc'
    rw [ho, hcl, (hcr c hc').1]
    exact h.outside c hc' (by rw [← (hcr c hc').2]; exact hrc)

/-- A node's frame reads only its kind, range and children, and the roles and ranges of those
children. -/
theorem framed_congr (hk : t'.kind n = t.kind n) (hr : t'.range n = t.range n)
    (h : t.Framed cs n) : t'.Framed cs n := fun r' hr' =>
  listInParens_congr hc hcr hr (h r' (hk ▸ hr'))

end congr

/-- Text written after a node's parentheses keeps its frame. -/
theorem Framed.append (h : t.Framed cs n) (more : List Char) : t.Framed (cs ++ more) n :=
  fun r' hr' =>
    have hp := h r' hr'
    ⟨hp.opens.append more, hp.closes.append more, hp.start_le, hp.lt_stop, hp.inside, hp.outside⟩

end SyntaxTree

end QuickFix
