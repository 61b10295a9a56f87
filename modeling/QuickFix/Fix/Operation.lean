import QuickFix.Fix.Stub
import QuickFix.Fix.Messages

/-!
# Operations of a fix

A fix is a list of **operations**, each a change of source in terms of nodes: qualify a name with
`this` or with its declaring class, remove a `this.` before a field or method, reach a static
member through its declaring type instead of an expression, declare a missing member, change the
arguments of a call, or change the parameters of a method. `Operation.apply` records an
operation in an edit session under an edit group named by the operation's description.

Argument and parameter lists are written anew by `rebuildList`: the text of the owner up to its
opening parenthesis, the new items separated by `, `, and the text from the closing parenthesis
on, with the children outside the parentheses kept as nodes.
-/

namespace QuickFix

/-- The node whose `this.` is removed: a field access, or a call whose receiver goes. -/
inductive RemoveTarget where
  | field (access : NodeId)
  | method (invocation : NodeId)
  deriving DecidableEq, Repr, Inhabited

/-- Which type a static access is changed to go through. -/
inductive StaticAccessKind where
  | declaringType | instanceType | indirect
  deriving DecidableEq, Repr, Inhabited

/-- The name of a kind of static access. -/
def StaticAccessKind.label : StaticAccessKind → String
  | .declaringType => "Declaring"
  | .instanceType => "Instance"
  | .indirect => "Indirect"

/-- An argument of a changed call: an argument it had, by position, or new text. -/
inductive ArgumentSlot where
  | existing (i : Nat)
  | new (text : String)
  deriving DecidableEq, Repr, Inhabited

/-- The new arguments of a call, and the label of the change. -/
structure ArgumentChange where
  arguments : List ArgumentSlot
  label : String
  deriving DecidableEq, Repr, Inhabited

/-- A parameter of a changed method: one it had, one it had with a new type, or a new one. -/
inductive ParameterSlot where
  | existing (i : Nat)
  | retyped (i : Nat) (ty : TypeId)
  | new (ty : TypeId) (name : String)
  deriving DecidableEq, Repr, Inhabited

/-- The new parameters of a method, and the label of the change. -/
structure SignatureChange where
  params : List ParameterSlot
  label : String
  deriving DecidableEq, Repr, Inhabited

/-- One change of source that a fix makes. -/
inductive Operation where
  | addThisQualifier (name : NodeId) (identifier : String) (qualifier : Option String)
  | addStaticQualifier (name : NodeId) (declaring : TypeId) (isMethod : Bool)
  | removeThisQualifier (target : RemoveTarget)
  | toStaticAccess (qualifier : NodeId) (declaring : TypeId) (accessor : String)
      (kind : StaticAccessKind)
  | createMember (stub : MemberStub)
  | changeArguments (invocation : NodeId) (change : ArgumentChange)
  | changeSignature (method : MethodId) (change : SignatureChange)
  deriving DecidableEq, Repr, Inhabited

namespace Operation

/-- What the operation does, in words; it names the operation's edit group. -/
def description : Operation → String
  | addThisQualifier _ ident q => Messages.qualifyWithThis ident q
  | addStaticQualifier _ _ isMethod =>
    if isMethod then Messages.qualifyMethodWithDeclaringClass
    else Messages.qualifyFieldWithDeclaringClass
  | removeThisQualifier _ => Messages.removeThisQualifier
  | toStaticAccess .. => Messages.changeAccessUsingDeclaring
  | createMember stub => stub.label
  | changeArguments _ c => c.label
  | changeSignature _ c => c.label

/-- The node an operation changes, where it changes one node. -/
def target? : Operation → Option NodeId
  | addThisQualifier n .. | addStaticQualifier n .. => some n
  | removeThisQualifier (.field n) | removeThisQualifier (.method n) => some n
  | toStaticAccess q .. => some q
  | changeArguments n _ => some n
  | createMember _ | changeSignature .. => none

end Operation

namespace EditSession

variable (s : EditSession)

/-- The stale-node error for a node of the session's unit. -/
def stale (n : NodeId) : FixError := .staleNode s.tree.file n

/-- The first child with a role of a node of the unit. -/
def requiredChild (n : NodeId) (r : Role) : Except FixError NodeId :=
  if !s.tree.contains n then .error (s.stale n)
  else match s.tree.child n r with
    | some c => .ok c
    | none => .error (s.stale n)

/-- The item at a position of a list that belongs to `owner`. -/
def listItem (owner : NodeId) (items : List NodeId) (i : Nat) : Except FixError NodeId :=
  match items[i]? with
  | some n => .ok n
  | none => .error (s.stale owner)

/-- The owner of a list with its items between the parentheses replaced. -/
def rebuildList (owner : NodeId) (role : Role) (items : List Template) : Except FixError Template := do
  let t := s.tree
  if !t.contains owner then throw (s.stale owner)
  let cs := t.text.toList
  let r := t.range owner
  let children := t.children owner
  let current := t.childrenWithRole owner role
  let headerEnd := ((children.filter fun c => t.role c == .name || t.role c == .type).getLast?.map
    fun c => (t.range c).stop).getD r.start
  let opening? := match current.head? with
    | some first => Text.rfindByte (· == '(') (Text.takeBytes cs (t.range first).start)
    | none => (Text.findByte (· == '(') (Text.sliceBytes cs headerEnd r.stop)).map (headerEnd + ·)
  let some opening := opening? | throw (s.stale owner)
  let afterItems := (current.getLast?.map fun c => (t.range c).stop).getD (opening + 1)
  let some closeRel := Text.findByte (· == ')') (Text.sliceBytes cs afterItems r.stop)
    | throw (s.stale owner)
  let close := afterItems + closeRel
  let slice := fun a b => Template.text (Text.slice t.text a b)
  let (before, cursor) := (children.filter fun c => (t.range c).stop ≤ opening).foldl
    (fun (acc, cur) c => (acc ++ [slice cur (t.range c).start, .node c], (t.range c).stop)) ([], r.start)
  let middle := [slice cursor (opening + 1)] ++
    (items.zipIdx.flatMap fun (it, i) => if i > 0 then [.text ", ", it] else [it])
  let (after, cursor) := (children.filter fun c => (t.range c).start > close).foldl
    (fun (acc, cur) c => (acc ++ [slice cur (t.range c).start, .node c], (t.range c).stop)) ([], close)
  return .concat (before ++ middle ++ after ++ [slice cursor r.stop])

end EditSession

namespace Operation

/-- Records the operation in a session, in a new edit group named by its description. -/
def apply (op : Operation) (s : EditSession) : Except FixError EditSession := do
  let s := s.beginGroup op.description
  let t := s.tree
  match op with
  | addThisQualifier n _ q =>
    let pre := match q with
      | some q => q ++ ".this."
      | none => "this."
    s.replace n (.concat [.text pre, .node n])
  | addStaticQualifier n declaring _ =>
    let (q, s) := s.addImport declaring
    s.replace n (.concat [.text (q ++ "."), .node n])
  | removeThisQualifier (.field access) =>
    let name ← s.requiredChild access .name
    s.replace access (.node name)
  | removeThisQualifier (.method inv) =>
    let recv ← s.requiredChild inv .expression
    s.remove recv
  | toStaticAccess q declaring _ _ =>
    -- the qualifier's kind is read before anything checks that it is in the unit
    let some qualifier := t.get? q | throw .abort
    let s ← if qualifier.kind == .methodInvocation || qualifier.kind == .classInstanceCreation then
        match t.enclosingStatement q with
        | some stmt => s.extractBefore stmt (.concat [.node q, .text ";"])
        | none => pure s
      else pure s
    let (name, s) := s.addImport declaring
    s.replace q (.text name)
  | createMember stub => stub.apply s
  | changeArguments inv c =>
    -- and so are the invocation's children
    let some call := t.get? inv | throw .abort
    let args := call.children.toList.filter (t.role · == .argument)
    let items ← c.arguments.mapM fun
      | .existing i => do return Template.node (← s.listItem inv args i)
      | .new x => pure (Template.text x)
    let rebuilt ← s.rebuildList inv .argument items
    s.replace inv rebuilt
  | changeSignature m c =>
    let b := s.bindings
    let some decl := t.findDeclaration (.method (b.eraseMethod m))
      | throw (.noMethodDeclaration (b.method m).name)
    let params := t.childrenWithRole decl .parameter
    let (items, s) ← c.params.foldlM (fun (acc, s) slot => do
      match slot with
      | .existing i => return (acc ++ [Template.node (← s.listItem decl params i)], s)
      | .retyped i ty =>
        let p ← s.listItem decl params i
        let name ← s.requiredChild p .name
        let (tn, s) := s.addImport ty
        return (acc ++ [Template.concat [.text (tn ++ " "), .node name]], s)
      | .new ty name =>
        let (tn, s) := s.addImport ty
        return (acc ++ [Template.text (tn ++ " " ++ name)], s)) ([], s)
    let rebuilt ← s.rebuildList decl .parameter items
    s.replace decl rebuilt

end Operation

end QuickFix
