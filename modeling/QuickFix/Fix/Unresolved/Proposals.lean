import QuickFix.Fix.Unresolved.Changes
import QuickFix.Fix.Fix
import QuickFix.Project.Problem

/-!
# Proposals for unresolved references

For a reference that does not resolve, the proposals are, in this order:

* for a call or an instance creation that no declaration of its name accepts: create the
  method or constructor, then change the call's arguments to match a declaration, then change a
  declaration's parameters to match the call; when the problem is a mismatch of parameters,
  creating a member comes last instead;
* for a field or a name: create the field in the type it is looked up in;
* for a member of an annotation: create the attribute in the annotation type.

A created member is as visible as it has to be for the call site: private in the same
top-level type, package-private in the same package, protected in a subtype, else public; and
static when the reference is made from a static context or through a type. Its type is what the
context of the reference expects: the other side of an assignment, a condition's `boolean`,
`void` for a statement, the parameter an argument is passed to, and `Object` when the context
says nothing.
-/

namespace QuickFix

/-- A call whose target is to be found or made: its node, the name it calls, the type that
should declare it, and its arguments. -/
structure Call where
  node : NodeId
  name : String
  target : TypeId
  isConstructor : Bool
  isStatic : Bool
  args : List CallArgument
  deriving Repr, Inhabited

/-- The innermost member around the node is static. -/
def SyntaxTree.inStaticContext (t : SyntaxTree) (n : NodeId) : Bool :=
  let isMember := fun (k : SyntaxKind) =>
    k == .methodDeclaration || k == .fieldDeclaration || k == .initializer
  match (t.ancestors n).find? fun a => (t.kind a).isTypeBody || isMember (t.kind a) with
  | some a => if (t.kind a).isTypeBody then false else (t.modifiers a).isStatic
  | none => false

/-- The least visibility that lets the site see a new member of the target. -/
def Bindings.visibilityFor (b : Bindings) (target site : TypeId) (isConstructor : Bool) : Modifiers :=
  if b.isInterface target then Modifiers.none
  else if b.topLevel target == b.topLevel site then { isPrivate := true }
  else if b.packageOf target == b.packageOf site then Modifiers.none
  else if !isConstructor && b.isSubtype target site false then { isProtected := true }
  else Modifiers.publicOnly

/-- The type the context of a node expects, seen through parentheses: `Object` when the context
says nothing or expects `null`. -/
def SyntaxTree.expectedType (t : SyntaxTree) (b : Bindings) (n : NodeId) : TypeId :=
  let n := ((t.ancestors n).takeWhile (t.kind · == .parenthesizedExpression)).getLast?.getD n
  match t.parent n with
  | none => Bindings.object
  | some parent =>
    let sibling := fun (r : Role) => (t.child parent r).bind t.typeBinding
    let expected : Option TypeId := match t.kind parent, t.role n with
      | .assignment, .rightSide => sibling .leftSide
      | .assignment, .leftSide => sibling .rightSide
      | .variableDeclarationFragment, .initializer =>
        ((t.binding parent).bind Binding.asVar?).bind fun v => (b.var v).ty
      | .ifStatement, .condition | .whileStatement, .condition => some Bindings.boolean
      | .prefixExpression, _ => if t.identifier parent == some "!" then some Bindings.boolean else none
      | .infixExpression, .operand =>
        match t.identifier parent with
        | some "&&" | some "||" => some Bindings.boolean
        | _ => ((t.childrenWithRole parent .operand).find? (· != n)).bind t.typeBinding
      | .expressionStatement, _ => some Bindings.void
      | .methodInvocation, .argument | .classInstanceCreation, .argument =>
        match (t.binding parent).bind Binding.asMethod?, (t.childrenWithRole parent .argument).idxOf? n with
        | some m, some i => (b.method m).params[i]? <|> (b.method m).params.getLast?
        | _, _ => none
      | .returnStatement, _ =>
        (((t.enclosing n .methodDeclaration).bind t.binding).bind Binding.asMethod?).bind
          fun m => (b.method m).returnType
      | .castExpression, .expression => t.typeBinding parent
      | .switchStatement, .expression => some Bindings.int
      | _, _ => none
    (expected.filter (· != Bindings.null)).getD Bindings.object

/-- The unit, the project and the file where an unresolved reference is reported. -/
structure ReferenceSite where
  project : Project
  tree : SyntaxTree
  file : FileId

namespace ReferenceSite

variable (cx : ReferenceSite)

def bindings : Bindings := cx.project.bindings

/-- The file that declares a type in source. -/
def sourceFile (ty : TypeId) : Option FileId :=
  (cx.project.typeDeclaration (cx.bindings.erase ty)).map (·.1.file)

/-- The type to write for a value of a type: `Object` for `null` and `void`, and for an
anonymous class the type it extends or implements. -/
def stubType (ty : TypeId) : TypeId :=
  let b := cx.bindings
  if ty == Bindings.null || ty == Bindings.void then Bindings.object
  else
    let info := b.ty ty
    if info.kind == .anonymousClass then
      match info.superclass, info.interfaces.head? with
      | some sup, _ => if sup != Bindings.object then sup
        else info.interfaces.head?.getD Bindings.object
      | none, some i => i
      | none, none => Bindings.object
    else ty

/-- The type to write for a result: `void` stays. -/
def resultType (ty : TypeId) : TypeId := if ty == Bindings.void then ty else cx.stubType ty

/-- The call or instance creation that the covering node is in, within its statement. -/
def invocation (covering : NodeId) : Option NodeId :=
  let t := cx.tree
  ((covering :: t.ancestors covering).takeWhile fun n => !(t.kind n).isStatement).find? fun n =>
    t.kind n == .methodInvocation || t.kind n == .classInstanceCreation

/-- The type a receiver names or has: a type name is a static receiver; an expression of a
reference type other than `null` an instance one. -/
def receiverType (recv : NodeId) : Option (TypeId × Bool) :=
  let t := cx.tree
  let b := cx.bindings
  let ofValue := match t.typeBinding recv with
    | some ty => if b.isReference ty && ty != Bindings.null then some (ty, false) else none
    | none => none
  match t.binding recv with
  | some (.type ty) => if (t.kind recv).isName then some (ty, true) else ofValue
  | _ => ofValue

/-- The call at a node: what it calls, where, and with which arguments. -/
def call (n : NodeId) : Option Call := do
  let t := cx.tree
  let b := cx.bindings
  let args := (t.childrenWithRole n .argument).map fun arg =>
    let ty := (t.typeBinding arg).getD Bindings.object
    ({ node := arg, ty, stubTy := cx.stubType ty } : CallArgument)
  if t.kind n == .classInstanceCreation then
    let tyNode ← t.child n .type
    let created ← (t.binding tyNode).bind Binding.asType?
    let target := b.erase created
    return { node := n, name := (b.ty target).name, target, isConstructor := true, isStatic := false, args }
  let name ← t.child n .name
  let (target, isStatic) ← match t.child n .expression with
    | none => (t.enclosingType n).map fun e => (e, t.inStaticContext n)
    | some recv => cx.receiverType recv
  let ident ← t.identifier name
  return { node := n, name := ident, target := b.erase target, isConstructor := false, isStatic, args }

/-- Creating the method or constructor that a call calls. -/
def createInvoked (c : Call) : Option Fix := do
  let b := cx.bindings
  let t := cx.tree
  let file ← cx.sourceFile c.target
  let site ← t.enclosingType c.node
  let target := b.ty c.target
  if (target.kind == .annotationType || target.kind == .enumType) && c.isConstructor then none
  let names := Naming.forArguments t b (c.args.map fun a => (a.node, a.stubTy)) []
  let params := (c.args.zip names).map fun (a, n) => (a.stubTy, n)
  let shape : Shape := { params := params.map (·.1), varargs := false }
  let mods := b.visibilityFor c.target site c.isConstructor
  let mods := if c.isStatic then mods.union Modifiers.staticOnly else mods
  let (ty, label) := if c.isConstructor then (none, Messages.createConstructor (shape.signature b c.name))
    else (some (cx.resultType (t.expectedType b c.node)),
      Messages.createMethod (shape.signature b c.name) (b.nestedName c.target))
  let stub : MemberStub :=
    { kind := if c.isConstructor then .constructor else .method, target := c.target, name := c.name,
      modifiers := mods, ty, params, isAbstract := target.isInterface && !c.isStatic, label }
  Fix.mk? label file [.createMember stub]

/-- The methods a call may mean: the target's constructors, or the methods of the called name in
the target and its supertypes, keeping the first of those with the same parameter types. -/
def candidates (c : Call) : List MethodId :=
  let b := cx.bindings
  let found := if c.isConstructor then b.constructors c.target else b.methodsNamed c.target c.name
  found.foldl (fun acc m => if acc.any (b.sameParameters · m) then acc else acc ++ [m]) []

/-- The proposals for a call that matches no declaration. -/
def invocationProposals (covering : NodeId) (kind : ProblemKind) : List Fix :=
  let b := cx.bindings
  match (cx.invocation covering).bind cx.call with
  | none => []
  | some c =>
    let candidates := cx.candidates c
    let tys := c.args.map (·.ty)
    if candidates.any fun m => (Shape.ofMethod b m).accepts b tys then []
    else
      let create := (cx.createInvoked c).toList
      let atCall := candidates.flatMap fun m =>
        (CallArgument.argumentChanges cx.tree b m c.args).filterMap fun ch =>
          Fix.mk? ch.label cx.file [.changeArguments c.node ch]
      let atDeclaration := candidates.flatMap fun m =>
        match cx.sourceFile (b.method m).declaring with
        | none => []
        | some f => (CallArgument.signatureChanges cx.tree b m c.args).filterMap fun ch =>
          Fix.mk? ch.label f [.changeSignature m ch]
      if kind == .parameterMismatch then atCall ++ atDeclaration ++ create
      else create ++ atCall ++ atDeclaration

/-- The field access or name that the covering node is, with the type to declare the field
in, whether it is reached statically, and the expression whose context gives its type. -/
def fieldTarget (name : NodeId) : Option (TypeId × Bool × NodeId) :=
  let t := cx.tree
  let qualified := (t.parent name).filter fun p =>
    t.role name == .name && (t.kind p == .qualifiedName || t.kind p == .fieldAccess)
  match qualified with
  | some access => do
    let recv ← t.child access .qualifier <|> t.child access .expression
    let (ty, isStatic) ← cx.receiverType recv
    return (ty, isStatic, access)
  | none => (t.enclosingType name).map fun ty => (ty, t.inStaticContext name, name)

/-- Creating the field that a name or field access refers to. -/
def fieldProposals (covering : NodeId) : List Fix := Option.toList do
  let t := cx.tree
  let b := cx.bindings
  let name ← match t.kind covering with
    | .simpleName => some covering
    | .qualifiedName | .fieldAccess => t.child covering .name
    | _ => none
  if (t.binding name).isSome then none
  let identifier ← t.identifier name
  let (target, isStatic, expression) ← cx.fieldTarget name
  let target := b.erase target
  if b.isInterface target then none
  let file ← cx.sourceFile target
  let site ← t.enclosingType name
  let mods := b.visibilityFor target site false
  let mods := if isStatic then mods.union Modifiers.staticOnly else mods
  let label := Messages.createField identifier (b.nestedName target)
  let stub : MemberStub :=
    { kind := .field, target, name := identifier, modifiers := mods,
      ty := some (cx.stubType (t.expectedType b expression)), params := [], isAbstract := false, label }
  Fix.mk? label file [.createMember stub]

/-- Creating the attribute that a member-value pair of an annotation names. -/
def attributeProposals (covering : NodeId) : List Fix := Option.toList do
  let t := cx.tree
  let b := cx.bindings
  let pair ← (covering :: t.ancestors covering).find? (t.kind · == .memberValuePair)
  let annotation ← ((t.parent pair).filter (t.kind · == .annotationUse)).bind t.binding
  let annotation ← annotation.asType?
  let name ← t.child pair .name
  let identifier ← t.identifier name
  let file ← cx.sourceFile annotation
  let valueTy := (((t.child pair .expression).bind t.typeBinding).map cx.stubType).getD Bindings.string
  let label := Messages.createAttribute identifier (b.nestedName annotation)
  let stub : MemberStub :=
    { kind := .attribute, target := b.erase annotation, name := identifier, modifiers := Modifiers.none,
      ty := some valueTy, params := [], isAbstract := true, label }
  Fix.mk? label file [.createMember stub]

end ReferenceSite

/-- Every proposal for an unresolved reference, in order of preference. -/
def unresolvedProposals (p : Project) (file : FileId) (pr : Problem) : List Fix :=
  if !pr.kind.isUnresolvedReference then []
  else match p.unit? file with
    | none => []
    | some t =>
      match pr.coveringNode t with
      | none => []
      | some covering =>
        let cx : ReferenceSite := ⟨p, t, file⟩
        match pr.kind with
        | .undefinedMethod | .undefinedConstructor | .parameterMismatch =>
          cx.invocationProposals covering pr.kind
        | .undefinedField | .undefinedName => cx.fieldProposals covering
        | .undefinedAnnotationMember => cx.attributeProposals covering
        | _ => []

end QuickFix
