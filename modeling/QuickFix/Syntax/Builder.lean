import QuickFix.Syntax.Tree

/-!
# Building syntax trees

A `TreeBuilder` grows a tree from start and finish events: `startNode` opens a node at an offset
as the last child of the innermost open node, `finishNode` closes the innermost open node at an
offset (never before its start), and `leaf` does both. `finish` checks the result: no node is
left open, there is a root, no node reaches past the text, and every node lies inside its parent.
The first violation, in node order, is the `TreeError`.
-/

namespace QuickFix

/-- Why a sequence of events does not describe a tree of a text. -/
inductive TreeError where
  | empty
  | unfinished (node : NodeId)
  | unbalancedFinish
  | outOfBounds (node : NodeId) (range : Range) (len : Nat)
  | notNested (node : NodeId) (range : Range) (parent : Range)
  deriving DecidableEq, Repr

namespace TreeError

/-- A node as it is written inside messages. -/
def nodeTag (n : NodeId) : String := s!"NodeId({n.idx})"

/-- The text of a tree error. -/
def message : TreeError → String
  | empty => "tree has no root node"
  | unfinished n => s!"node {nodeTag n} was started but never finished"
  | unbalancedFinish => "finish_node called without an open node"
  | outOfBounds n r len => s!"node {nodeTag n} range {r.display} exceeds the source length {len}"
  | notNested n r p => s!"node {nodeTag n} range {r.display} is not inside its parent range {p.display}"

/-- The name of the kind of a tree error. -/
def kind : TreeError → String
  | empty => "Empty"
  | unfinished .. => "Unfinished"
  | unbalancedFinish => "UnbalancedFinish"
  | outOfBounds .. => "OutOfBounds"
  | notNested .. => "NotNested"

end TreeError

/-- A tree under construction: the nodes so far and the open ones, innermost first. -/
structure TreeBuilder where
  nodes : Array Node := #[]
  openNodes : List NodeId := []
  deriving Inhabited

namespace TreeBuilder

/-- The innermost open node. -/
def current (b : TreeBuilder) : Option NodeId := b.openNodes.head?

/-- Changes one node. -/
def modify (b : TreeBuilder) (id : NodeId) (f : Node → Node) : TreeBuilder :=
  { b with nodes := b.nodes.modify id.idx f }

/-- Opens a node at `start` inside the innermost open node. -/
def startNode (b : TreeBuilder) (kind : SyntaxKind) (role : Role) (start : Nat) : TreeBuilder × NodeId :=
  let id : NodeId := ⟨b.nodes.size⟩
  let parent := b.current
  let nodes := b.nodes.push { kind, role, parent, range := Range.point start }
  let nodes := match parent with
    | some p => nodes.modify p.idx fun n => { n with children := n.children.push id }
    | none => nodes
  ({ nodes, openNodes := id :: b.openNodes }, id)

/-- Closes the innermost open node at `stop`, or at its start if `stop` comes before it. -/
def finishNode (b : TreeBuilder) (stop : Nat) : Except TreeError (TreeBuilder × NodeId) :=
  match b.openNodes with
  | [] => .error .unbalancedFinish
  | id :: rest =>
    let b := b.modify id fun n => { n with range := ⟨n.range.start, max stop n.range.start⟩ }
    .ok ({ b with openNodes := rest }, id)

/-- Adds a node that has no children. -/
def leaf (b : TreeBuilder) (kind : SyntaxKind) (role : Role) (r : Range) : TreeBuilder × NodeId :=
  let (b, id) := b.startNode kind role r.start
  match b.finishNode r.stop with
  | .ok (b, _) => (b, id)
  | .error _ => (b, id)

/-- Sets the identifier of a node. -/
def setIdentifier (b : TreeBuilder) (id : NodeId) (s : String) : TreeBuilder :=
  b.modify id fun n => { n with identifier := some s }

/-- Sets the binding of a node. -/
def setBinding (b : TreeBuilder) (id : NodeId) (x : Binding) : TreeBuilder :=
  b.modify id fun n => { n with binding := some x }

/-- Sets the expression type of a node. -/
def setTypeBinding (b : TreeBuilder) (id : NodeId) (ty : TypeId) : TreeBuilder :=
  b.modify id fun n => { n with typeBinding := some ty }

/-- Sets the modifiers of a node. -/
def setModifiers (b : TreeBuilder) (id : NodeId) (m : Modifiers) : TreeBuilder :=
  b.modify id fun n => { n with modifiers := m }

/-- The first node, in order, that reaches past the text or out of its parent. -/
def firstMisplaced (nodes : Array Node) (len : Nat) : Option TreeError :=
  (List.range nodes.size).findSome? fun i =>
    let n := nodes[i]?.getD default
    if len < n.range.stop then some (.outOfBounds ⟨i⟩ n.range len)
    else match n.parent with
      | some p =>
        let pr := (nodes[p.idx]?.getD default).range
        if pr.covers n.range then none else some (.notNested ⟨i⟩ n.range pr)
      | none => none

/-- The finished tree of a file's text, or why the events do not describe one. -/
def finish (b : TreeBuilder) (file : FileId) (text : String) : Except TreeError SyntaxTree :=
  match b.openNodes with
  | id :: _ => .error (.unfinished id)
  | [] =>
    if b.nodes.size = 0 then .error .empty
    else match firstMisplaced b.nodes (Text.byteSize text.toList) with
      | some err => .error err
      | none => .ok ⟨file, text, b.nodes⟩

end TreeBuilder

end QuickFix
