import QuickFix.Edit.Basic
import QuickFix.Syntax.Kind
import QuickFix.Syntax.Modifiers
import QuickFix.Binding.Id
import QuickFix.Text.Bytes

/-!
# Syntax trees

A **syntax tree** of one file is an array of nodes; node `0` is the root, and every other node
names its parent, which comes before it in the array. Each node has a kind, a role in its parent,
a byte range of the text, its children in source order, and what resolution attached to it: an
identifier, the declaration it refers to, the type of the expression, modifiers.

Queries walk up through parents (`ancestors`) or down from the root (`preorder`,
`coveringNode`). Walking up stops at a parent that does not come earlier, and walking down skips
a child that does not come later: in a tree built by `TreeBuilder` neither happens, and the two
guards make every walk finite.
-/

namespace QuickFix

/-- The position of a node in its tree. -/
structure NodeId where
  idx : Nat
  deriving DecidableEq, Repr, Inhabited, Hashable

instance : Ord NodeId := ⟨fun a b => compare a.idx b.idx⟩

/-- A node of a syntax tree. -/
structure Node where
  kind : SyntaxKind
  range : Range
  parent : Option NodeId
  role : Role
  children : Array NodeId := #[]
  identifier : Option String := none
  binding : Option Binding := none
  typeBinding : Option TypeId := none
  modifiers : Modifiers := {}
  deriving Repr, Inhabited

/-- A file's text with the nodes that describe it. -/
structure SyntaxTree where
  file : FileId
  text : String
  nodes : Array Node
  deriving Repr, Inhabited

/-- What an import declaration says: the imported name without a trailing `.*`, whether it is
static, and whether it imports every member (`on demand`). -/
structure ImportInfo where
  node : NodeId
  name : String
  isStatic : Bool
  onDemand : Bool
  deriving Repr, Inhabited

/-- The last segment of an imported name: what follows its last dot, or the whole name. -/
def ImportInfo.simpleName (i : ImportInfo) : String :=
  String.ofList (i.name.toList.reverse.takeWhile (· != '.')).reverse

namespace SyntaxTree

variable (t : SyntaxTree)

/-- The root node. -/
def root : NodeId := ⟨0⟩

/-- The number of nodes. -/
def size : Nat := t.nodes.size

/-- A node id names a node of this tree. -/
def contains (id : NodeId) : Bool := id.idx < t.nodes.size

/-- The node with a given id (a default node when the id is not in the tree). -/
def node (id : NodeId) : Node := t.nodes[id.idx]?.getD default

/-- The node with a given id. -/
def get? (id : NodeId) : Option Node := t.nodes[id.idx]?

def kind (id : NodeId) : SyntaxKind := (t.node id).kind
def range (id : NodeId) : Range := (t.node id).range
def parent (id : NodeId) : Option NodeId := (t.node id).parent
def role (id : NodeId) : Role := (t.node id).role
def binding (id : NodeId) : Option Binding := (t.node id).binding
def typeBinding (id : NodeId) : Option TypeId := (t.node id).typeBinding
def identifier (id : NodeId) : Option String := (t.node id).identifier
def modifiers (id : NodeId) : Modifiers := (t.node id).modifiers

/-- The children of a node, in source order. -/
def children (id : NodeId) : List NodeId := (t.node id).children.toList

/-- The first child with a given role. -/
def child (id : NodeId) (r : Role) : Option NodeId := (t.children id).find? (t.role · == r)

/-- The children with a given role, in source order. -/
def childrenWithRole (id : NodeId) (r : Role) : List NodeId := (t.children id).filter (t.role · == r)

/-- The text of a node. -/
def source (id : NodeId) : String := Text.slice t.text (t.range id).start (t.range id).stop

/-- The parent, then its parent, and so on up to the root. -/
def ancestors (id : NodeId) : List NodeId :=
  match t.parent id with
  | some p => if p.idx < id.idx then p :: ancestors p else []
  | none => []
termination_by id.idx

/-- The number of ancestors. -/
def depth (id : NodeId) : Nat := (t.ancestors id).length

/-- A node followed by the nodes below it, depth first, children in source order. -/
def subtree (id : NodeId) : List NodeId :=
  id :: (t.children id).attach.flatMap fun ⟨c, _⟩ =>
    if id.idx < c.idx ∧ c.idx < t.nodes.size then subtree c else []
termination_by t.nodes.size - id.idx

/-- Every node under the root in depth-first order. -/
def preorder : List NodeId := if t.nodes.size = 0 then [] else t.subtree root

/-- The nearest ancestor that is a type body. -/
def enclosingTypeBody (id : NodeId) : Option NodeId :=
  (t.ancestors id).find? fun n => (t.kind n).isTypeBody

/-- The type declared by the nearest enclosing type body. -/
def enclosingType (id : NodeId) : Option TypeId := do
  let body ← t.enclosingTypeBody id
  (← t.binding body).asType?

/-- The nearest ancestor of a given kind. -/
def enclosing (id : NodeId) (k : SyntaxKind) : Option NodeId :=
  (t.ancestors id).find? fun n => t.kind n == k

/-- The node itself if it is a statement, else the nearest statement above it that is not
beyond the member declaration holding it. -/
def enclosingStatement (id : NodeId) : Option NodeId :=
  go (id :: t.ancestors id)
where
  go : List NodeId → Option NodeId
    | [] => none
    | x :: rest =>
      if (t.kind x).isStatement then some x
      else match rest with
        | [] => none
        | y :: _ => if (t.kind y).isBodyDeclaration then none else go rest

/-- Descends from a node to the first child covering the range, as long as there is one. -/
def descend (r : Range) (id : NodeId) : NodeId :=
  match (t.children id).find? fun c => (t.range c).covers r with
  | some c => if id.idx < c.idx ∧ c.idx < t.nodes.size then descend r c else id
  | none => id
termination_by t.nodes.size - id.idx

/-- The deepest node, always taking the first child that covers the range, that covers it. -/
def coveringNode (r : Range) : Option NodeId :=
  if t.contains root && (t.range root).covers r then some (t.descend r root) else none

/-- The kinds of node that declare what they bind. -/
def isDeclarationKind : SyntaxKind → Bool
  | .typeDeclaration | .anonymousClassDeclaration | .methodDeclaration
  | .annotationTypeMemberDeclaration | .variableDeclarationFragment | .singleVariableDeclaration
  | .enumConstantDeclaration => true
  | _ => false

/-- The first node in preorder that declares a binding. -/
def findDeclaration (b : Binding) : Option NodeId :=
  t.preorder.find? fun n => t.binding n == some b && isDeclarationKind (t.kind n)

/-- The package declaration. -/
def packageDeclaration : Option NodeId := t.child root .package

/-- The declared package. -/
def package : Option String := t.packageDeclaration >>= t.identifier

/-- The import declarations, in order. -/
def imports : List ImportInfo :=
  (t.childrenWithRole root .imported).filterMap fun n => do
    let raw ← t.identifier n
    let (name, onDemand) :=
      if raw.endsWith ".*" then (String.ofList (raw.toList.take (raw.length - 2)), true)
      else (raw, false)
    pure ⟨n, name, (t.modifiers n).isStatic, onDemand⟩

/-- The top-level type declarations. -/
def types : List NodeId := t.childrenWithRole root .member

end SyntaxTree

end QuickFix
