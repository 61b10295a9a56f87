import QuickFix.Outline.Basic
import QuickFix.Binding.Names
import QuickFix.Syntax.Builder

/-!
# Rendering outlines

`SourceUnit.render` writes a unit as source text and builds its syntax tree at the same time, so every
node's range is exactly the text written for it. The layout is fixed: four spaces per level of
indentation, `package p;` and a blank line, the imports and a blank line, then the types, with
each member and each statement on a line of its own.

Annotations of a member are held back and written at the start of the next type, field or
method declaration; an initializer, enum constant or annotation attribute does not write them.

Each rendering step takes one unit of `fuel` from its caller. A step nests at most twice as deep
as the outline is heavy (annotations held back are written once more), so `SourceUnit.render` gives it
twice the weight of the unit and some to spare.
-/

namespace QuickFix.Outline

/-- What rendering reads: the binding table and the parameters of each method. -/
structure RenderContext where
  bindings : Bindings
  params : MethodId → List VarId

/-- What rendering has written so far. -/
structure RenderState where
  builder : TreeBuilder := {}
  out : String := ""
  indent : Nat := 0
  types : List TypeId := []
  pending : List AnnotationUse := []
  declared : Array TypeId := #[]

/-- The rendering monad. -/
abbrev RenderM := ReaderT RenderContext (StateM RenderState)

namespace RenderM

/-- The offset at which the next text goes. -/
def pos : RenderM Nat := do return (← get).out.utf8ByteSize

def text (s : String) : RenderM Unit := modify fun st => { st with out := st.out ++ s }

/-- A line break followed by the indentation of the current level. -/
def newline : RenderM Unit := modify fun st =>
  { st with out := st.out ++ "\n" ++ String.join (List.replicate st.indent "    ") }

def indentBy (d : Int) : RenderM Unit := modify fun st =>
  { st with indent := (st.indent + d).toNat }

def onBuilder (f : TreeBuilder → TreeBuilder) : RenderM Unit :=
  modify fun st => { st with builder := f st.builder }

def start (k : SyntaxKind) (r : Role) : RenderM NodeId := do
  let p ← pos
  let st ← get
  let (b, id) := st.builder.startNode k r p
  set { st with builder := b }
  return id

def finish : RenderM NodeId := do
  let p ← pos
  let st ← get
  match st.builder.finishNode p with
  | .ok (b, id) => set { st with builder := b }; return id
  | .error _ => return default

def leaf (k : SyntaxKind) (r : Role) (s : String) : RenderM NodeId := do
  let a ← pos
  text s
  let b ← pos
  let st ← get
  let (bld, id) := st.builder.leaf k r ⟨a, b⟩
  set { st with builder := bld }
  return id

def setIdentifier (n : NodeId) (s : String) : RenderM Unit := onBuilder (·.setIdentifier n s)
def setBinding (n : NodeId) (x : Binding) : RenderM Unit := onBuilder (·.setBinding n x)
def setTypeBinding (n : NodeId) (t : TypeId) : RenderM Unit := onBuilder (·.setTypeBinding n t)
def setModifiers (n : NodeId) (m : Modifiers) : RenderM Unit := onBuilder (·.setModifiers n m)

def table : RenderM Bindings := do return (← read).bindings

/-- The expression type of a node written so far. -/
def typeOfNode (n : NodeId) : RenderM (Option TypeId) := do
  return ((← get).builder.nodes[n.idx]?.bind (·.typeBinding))

/-- Gives a node the binding and type of another. -/
def copyBinding (src dst : NodeId) : RenderM Unit := onBuilder fun b =>
  let s := b.nodes[src.idx]?.getD default
  b.modify dst fun n => { n with binding := s.binding, typeBinding := s.typeBinding }

/-- Writes modifiers followed by a space, or nothing. -/
def modifiersText (m : Modifiers) : RenderM Unit := do
  if !m.text.isEmpty then text (m.text ++ " ")

/-- The type of what a binding refers to: a type itself, a variable's type, a method's result. -/
def typeOf (x : Binding) : RenderM (Option TypeId) := do
  let b ← table
  return match x with
    | .type t => some t
    | .var v => (b.var v).ty
    | .method m => (b.method m).returnType

/-- Writes a simple name with its binding; a name that is not a method's also gets a type. -/
def name (r : Role) (n : NameRef) : RenderM NodeId := do
  let b ← table
  let s := if n.text.isEmpty then (n.binding.map b.name).getD "" else n.text
  let node ← leaf .simpleName r s
  setIdentifier node s
  if let some x := n.binding then
    setBinding node x
    match x with
    | .method _ => pure ()
    | _ => if let some t ← typeOf x then setTypeBinding node t
  return node

def boundName (r : Role) (x : Binding) : RenderM NodeId := name r { binding := some x }

/-- Writes a type as source code shows it. -/
def typeRef (r : Role) (t : TypeId) : RenderM NodeId := do
  let b ← table
  let node ← leaf (if b.isPrimitive t then .primitiveType else .simpleType) r (b.display t)
  setBinding node (.type t)
  setTypeBinding node t
  return node

/-- Writes a parameter of a method: its type, the dots of a variable arity if `dots`, and its
name. -/
def parameter (p : VarId) (dots : Bool) : RenderM NodeId := do
  let pv := (← table).var p
  let node ← start .singleVariableDeclaration .parameter
  setBinding node (.var p)
  setIdentifier node pv.name
  if let some t := pv.ty then
    let _ ← typeRef .type t
  if dots then text "..."
  text " "
  let _ ← boundName .name (.var p)
  finish

/-- The type of a literal of each kind. -/
def LitKind.type : LitKind → TypeId
  | .int => Bindings.int | .long => Bindings.long | .double => Bindings.double
  | .boolean => Bindings.boolean | .char => Bindings.char | .string => Bindings.string
  | .null => Bindings.null

/-- The operators whose result is a `boolean` whatever their operands. -/
def isTestOperator (op : String) : Bool :=
  ["==", "!=", "<", ">", "<=", ">=", "&&", "||"].contains op

mutual

/-- Writes the annotations held back, each on a line of its own. -/
def flush : Nat → RenderM Unit
  | 0 => pure ()
  | fuel + 1 => do
    let anns := (← get).pending
    modify fun st => { st with pending := [] }
    for .mk ty values in anns do
      let node ← start .annotationUse .annotationUse
      text "@"
      let nm := ((← table).ty ty).name
      let tn ← leaf .simpleName .type nm
      setIdentifier tn nm
      setBinding tn (.type ty)
      if !values.isEmpty then
        text "("
        let mut first := true
        for (n, v) in values do
          if !first then text ", "
          first := false
          let _ ← start .memberValuePair .memberValue
          let _ ← name .name n
          text " = "
          let _ ← expr fuel v .expression
          let _ ← finish
        text ")"
      let _ ← finish
      setBinding node (.type ty)
      setTypeBinding node ty
      newline

/-- Writes a type declaration: modifiers, keyword, name, supertypes and body. -/
def typeDecl : Nat → TypeDecl → Role → RenderM NodeId
  | 0, _, _ => pure default
  | fuel + 1, d@(.mk ty _), r => do
    let b ← table
    let info := b.ty ty
    let node ← start .typeDeclaration r
    flush fuel
    setBinding node (.type ty)
    setIdentifier node info.name
    setModifiers node info.modifiers
    modifiersText info.modifiers
    text (match info.kind with
      | .interfaceType => "interface "
      | .enumType => "enum "
      | .annotationType => "@interface "
      | _ => "class ")
    let _ ← boundName .name (.type ty)
    if info.kind == .classType then
      if let some sc := info.superclass then
        if sc != Bindings.object then
          text " extends "
          let _ ← typeRef .type sc
    if !info.interfaces.isEmpty then
      text (if info.kind == .interfaceType then " extends " else " implements ")
      let mut first := true
      for i in info.interfaces do
        if !first then text ", "
        first := false
        let _ ← typeRef .type i
    text " \x7b"
    typeBody fuel d
    newline
    text "\x7d"
    finish

/-- Writes the members of a type body: enum constants first, then the rest in order. -/
def typeBody : Nat → TypeDecl → RenderM Unit
  | 0, _ => pure ()
  | fuel + 1, .mk ty members => do
    modify fun st => { st with declared := st.declared.push ty, types := ty :: st.types }
    indentBy 1
    let constants := members.filterMap fun | .constant v => some v | _ => none
    if !constants.isEmpty then
      newline
      let mut first := true
      for c in constants do
        if !first then text ", "
        first := false
        let node ← start .enumConstantDeclaration .member
        setBinding node (.var c)
        let _ ← boundName .name (.var c)
        let _ ← finish
      text ";"
    for m in members do
      match m with
      | .constant _ => pure ()
      | _ =>
        newline
        member fuel m
    indentBy (-1)
    modify fun st => { st with types := st.types.tail }

/-- Writes one member. -/
def member : Nat → Member → RenderM Unit
  | 0, _ => pure ()
  | fuel + 1, .field v init => do
    let info := (← table).var v
    let node ← start .fieldDeclaration .member
    flush fuel
    setModifiers node info.modifiers
    modifiersText info.modifiers
    if let some t := info.ty then
      let _ ← typeRef .type t
      text " "
    fragment fuel v init
    text ";"
    let _ ← finish
  | fuel + 1, .method m body => methodDecl fuel m body
  | fuel + 1, .initializer isStatic body => do
    let node ← start .initializer .member
    if isStatic then
      setModifiers node Modifiers.staticOnly
      text "static "
    let _ ← block fuel body .body
    let _ ← finish
  | fuel + 1, .nested d => do
    let _ ← typeDecl fuel d .member
  | _ + 1, .constant _ => pure ()
  | fuel + 1, .annotated anns inner => do
    modify fun st => { st with pending := st.pending ++ anns }
    member fuel inner
  | _ + 1, .attribute m => do
    let info := (← table).method m
    let node ← start .annotationTypeMemberDeclaration .member
    setBinding node (.method m)
    setIdentifier node info.name
    let _ ← typeRef .returnType (info.returnType.getD Bindings.void)
    text " "
    let _ ← boundName .name (.method m)
    text "();"
    let _ ← finish

/-- Writes a method or constructor declaration; no body makes it abstract. -/
def methodDecl : Nat → MethodId → Option (List Stmt) → RenderM Unit
  | 0, _, _ => pure ()
  | fuel + 1, m, body => do
    let b ← table
    let info := b.method m
    let node ← start .methodDeclaration .member
    flush fuel
    setBinding node (.method m)
    setIdentifier node info.name
    setModifiers node info.modifiers
    modifiersText info.modifiers
    if !info.isConstructor then
      let _ ← typeRef .returnType (info.returnType.getD Bindings.void)
      text " "
    let _ ← boundName .name (.method m)
    text "("
    let params := (← read).params m
    let mut i := 0
    for p in params do
      if i > 0 then text ", "
      let _ ← parameter p (info.varargs && i + 1 == params.length)
      i := i + 1
    text ")"
    match body with
    | some ss =>
      text " "
      let _ ← block fuel ss .body
    | none => text ";"
    let _ ← finish

/-- Writes a declared variable with its initializer. -/
def fragment : Nat → VarId → Option Expr → RenderM Unit
  | 0, _, _ => pure ()
  | fuel + 1, v, init => do
    let node ← start .variableDeclarationFragment .fragment
    setBinding node (.var v)
    setIdentifier node ((← table).var v).name
    let _ ← boundName .name (.var v)
    if let some e := init then
      text " = "
      let _ ← expr fuel e .initializer
    let _ ← finish

/-- Writes a block, each statement on a line of its own one level deeper. -/
def block : Nat → List Stmt → Role → RenderM NodeId
  | 0, _, _ => pure default
  | fuel + 1, ss, r => do
    let _ ← start .block r
    text "\x7b"
    indentBy 1
    for s in ss do
      newline
      let _ ← stmt fuel s .statement
    indentBy (-1)
    newline
    text "\x7d"
    finish

/-- Writes the body of a compound statement: a block on the same line, anything else on the
next line one level deeper. -/
def nestedStmt : Nat → Stmt → Role → RenderM Unit
  | 0, _, _ => pure ()
  | fuel + 1, s, r => do
    match s with
    | .block _ =>
      text " "
      let _ ← stmt fuel s r
    | _ =>
      indentBy 1
      newline
      let _ ← stmt fuel s r
      indentBy (-1)

/-- Writes a statement. -/
def stmt : Nat → Stmt → Role → RenderM NodeId
  | 0, _, _ => pure default
  | fuel + 1, .expr e, r => do
    let _ ← start .expressionStatement r
    let _ ← expr fuel e .expression
    text ";"
    finish
  | fuel + 1, .localVar v init, r => do
    let _ ← start .variableDeclarationStatement r
    if let some t := ((← table).var v).ty then
      let _ ← typeRef .type t
      text " "
    fragment fuel v init
    text ";"
    finish
  | fuel + 1, .ret value, r => do
    let _ ← start .returnStatement r
    text "return"
    if let some e := value then
      text " "
      let _ ← expr fuel e .expression
    text ";"
    finish
  | fuel + 1, .ifThen c t e, r => do
    let _ ← start .ifStatement r
    text "if ("
    let _ ← expr fuel c .condition
    text ")"
    nestedStmt fuel t .thenBranch
    if let some o := e then
      match t with
      | .block _ => text " else"
      | _ => newline; text "else"
      match o with
      | .ifThen .. =>
        text " "
        let _ ← stmt fuel o .elseBranch
      | _ => nestedStmt fuel o .elseBranch
    finish
  | fuel + 1, .whileLoop c body, r => do
    let _ ← start .whileStatement r
    text "while ("
    let _ ← expr fuel c .condition
    text ")"
    nestedStmt fuel body .body
    finish
  | fuel + 1, .block ss, r => block fuel ss r
  | fuel + 1, .switch sel cases, r => do
    let _ ← start .switchStatement r
    text "switch ("
    let _ ← expr fuel sel .expression
    text ") \x7b"
    indentBy 1
    for .mk label body in cases do
      newline
      let _ ← start .switchCase .statement
      match label with
      | some l =>
        text "case "
        let _ ← expr fuel l .caseLabel
        text ":"
      | none => text "default:"
      let _ ← finish
      indentBy 1
      for s in body do
        newline
        let _ ← stmt fuel s .statement
      indentBy (-1)
    indentBy (-1)
    newline
    text "\x7d"
    finish

/-- Writes an argument list in parentheses. -/
def args : Nat → List Expr → RenderM Unit
  | 0, _ => pure ()
  | fuel + 1, es => do
    text "("
    let mut first := true
    for e in es do
      if !first then text ", "
      first := false
      let _ ← expr fuel e .argument
    text ")"

/-- Writes an expression and gives its node a binding and a type where it has them. -/
def expr : Nat → Expr → Role → RenderM NodeId
  | 0, _, _ => pure default
  | _ + 1, .name n, r => name r n
  | _ + 1, .typeName t, r => boundName r (.type t)
  | fuel + 1, .qualified q n, r => do
    let node ← start .qualifiedName r
    let _ ← expr fuel q .qualifier
    text "."
    let simple ← name .name n
    let _ ← finish
    copyBinding simple node
    return node
  | fuel + 1, .field q n, r => do
    let node ← start .fieldAccess r
    let _ ← expr fuel q .expression
    text "."
    let simple ← name .name n
    let _ ← finish
    copyBinding simple node
    return node
  | _ + 1, .superField v, r => do
    let node ← start .superFieldAccess r
    text "super."
    let simple ← boundName .name (.var v)
    let _ ← finish
    copyBinding simple node
    return node
  | _ + 1, .thisRef q, r => do
    let node ← start .thisExpression r
    if let some t := q then
      let _ ← boundName .qualifier (.type t)
      text "."
    text "this"
    let _ ← finish
    match q <|> (← get).types.head? with
    | some t => setTypeBinding node t
    | none => pure ()
    return node
  | fuel + 1, .call recv m as, r => do
    let node ← start .methodInvocation r
    if let some e := recv then
      let _ ← expr fuel e .expression
      text "."
    let _ ← name .name m
    args fuel as
    let _ ← finish
    if let some x := m.binding then
      setBinding node x
      if let some t ← typeOf x then setTypeBinding node t
    return node
  | fuel + 1, .new ty ctor as body, r => do
    let node ← start .classInstanceCreation r
    text "new "
    let _ ← typeRef .type ty
    args fuel as
    let mut created := ty
    if let some d@(.mk bt _) := body then
      text " "
      let anon ← start .anonymousClassDeclaration .anonymousBody
      setBinding anon (.type bt)
      text "\x7b"
      typeBody fuel d
      newline
      text "\x7d"
      let _ ← finish
      created := bt
    let _ ← finish
    if let some c := ctor then setBinding node (.method c)
    setTypeBinding node created
    return node
  | fuel + 1, .assign l rhs, r => do
    let node ← start .assignment r
    let left ← expr fuel l .leftSide
    text " = "
    let _ ← expr fuel rhs .rightSide
    let _ ← finish
    setIdentifier node "="
    if let some t ← typeOfNode left then setTypeBinding node t
    return node
  | fuel + 1, .binary l op rhs, r => do
    let node ← start .infixExpression r
    let left ← expr fuel l .operand
    text (" " ++ op ++ " ")
    let _ ← expr fuel rhs .operand
    let _ ← finish
    setIdentifier node op
    let t ← if isTestOperator op then pure (some Bindings.boolean) else typeOfNode left
    if let some t := t then setTypeBinding node t
    return node
  | fuel + 1, .negation e, r => do
    let node ← start .prefixExpression r
    text "!"
    let _ ← expr fuel e .operand
    let _ ← finish
    setIdentifier node "!"
    setTypeBinding node Bindings.boolean
    return node
  | _ + 1, .lit s k, r => do
    let node ← leaf .literal r s
    setTypeBinding node (LitKind.type k)
    return node
  | fuel + 1, .paren e, r => do
    let node ← start .parenthesizedExpression r
    text "("
    let inner ← expr fuel e .expression
    text ")"
    let _ ← finish
    if let some t ← typeOfNode inner then setTypeBinding node t
    return node
  | fuel + 1, .castTo t e, r => do
    let node ← start .castExpression r
    text "("
    let _ ← typeRef .type t
    text ") "
    let _ ← expr fuel e .expression
    let _ ← finish
    setTypeBinding node t
    return node

end

/-- Writes a whole unit. -/
def unit (fuel : Nat) (u : SourceUnit) : RenderM Unit := do
  let _ ← start .compilationUnit .root
  if let some p := u.package then
    let node ← start .packageDeclaration .package
    text "package "
    let _ ← leaf .simpleName .name p
    text ";"
    let _ ← finish
    setIdentifier node p
    text "\n\n"
  for (n, isStatic) in u.imports do
    let node ← start .importDeclaration .imported
    text (if isStatic then "import static " else "import ")
    let _ ← leaf .simpleName .name n
    text ";"
    let _ ← finish
    setIdentifier node n
    if isStatic then setModifiers node Modifiers.staticOnly
    text "\n"
  if !u.imports.isEmpty then text "\n"
  let mut first := true
  for d in u.types do
    if !first then text "\n"
    first := false
    let _ ← typeDecl fuel d .member
    text "\n"
  let _ ← finish

end RenderM

/-- The text and syntax tree of a unit, with the types whose bodies it declares, in order. -/
def SourceUnit.render (ctx : RenderContext) (u : SourceUnit) : Except TreeError (SyntaxTree × List TypeId) :=
  let st := ((RenderM.unit (2 * u.weight + 4) u).run ctx).run {} |>.2
  (st.builder.finish ⟨u.file⟩ st.out).map fun t => (t, st.declared.toList)

end QuickFix.Outline
