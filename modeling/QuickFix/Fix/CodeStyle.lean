import QuickFix.Fix.Operation
import QuickFix.Binding.Hierarchy

/-!
# Unqualified accesses

Finds the fields and methods a unit uses without a qualifier and says how to qualify them: a
static member with its declaring class, an instance member with `this`, or with `Outer.this` when
it belongs to an enclosing instance. The qualifier of an instance member is found by walking out
from the innermost enclosing type to the first type that is a subtype of the member's declaring
type; it is `this` when that is the innermost one and there is none for an anonymous class.

Names are looked at in preorder. The walk does not go into an interface unless some
qualification is asked for, and does not go below a name: of a qualified name only the leftmost
part is looked at, and of a chain of field accesses only the expression it starts from. A static
final field assigned in a static initializer, a field of an anonymous class, a declared name and
a switch label are left alone, and no node is qualified twice.
-/

namespace QuickFix

/-- Walks a tree in preorder; `visit` says for each node whether to go below it. -/
def SyntaxTree.walk {σ : Type} (t : SyntaxTree) (visit : σ → NodeId → σ × Bool) (s : σ) (id : NodeId) : σ :=
  let (s, down) := visit s id
  if !down then s
  else (t.children id).attach.foldl (fun s ⟨c, _⟩ =>
    if id.idx < c.idx ∧ c.idx < t.nodes.size then t.walk visit s c else s) s
termination_by t.nodes.size - id.idx

/-- The qualifier for an instance member of `declaring` used at `name`: empty for `this`, the
name of an enclosing class for its `this`, or none. The name of the class may plan an import. -/
def thisQualifier (b : Bindings) (imports : ImportPlan) (t : SyntaxTree) (declaring : TypeId)
    (name : NodeId) : Option String × ImportPlan :=
  match t.enclosingType name with
  | none => (none, imports)
  | some parent =>
    let chain := parent :: b.enclosingTypes parent
    let found := (chain.find? fun ty => b.isSubtype declaring ty true) <|>
      (chain.find? fun ty => b.isSubtype (b.erase declaring) ty false)
    match found with
    | none => (none, imports)
    | some cur =>
      if cur == parent then (some "", imports)
      else if b.isAnonymous cur then (none, imports)
      else
        let (n, imports) := imports.addImport b cur 0
        (some n, imports)

/-- The state of the search: imports planned for qualifiers, nodes qualified, operations. -/
structure QualifySearch where
  bindings : Bindings
  tree : SyntaxTree
  options : CodeStyle
  imports : ImportPlan
  targeted : List NodeId := []
  ops : Array Operation := #[]

namespace QualifySearch

variable (q : QualifySearch)

def wantsFields : Bool := q.options.qualifyField || q.options.qualifyStaticField
def wantsMethods : Bool := q.options.qualifyMethod || q.options.qualifyStaticMethod

/-- Adds an operation for a node not qualified yet. -/
def push (n : NodeId) (op : Operation) : QualifySearch :=
  if q.targeted.contains n then q else { q with targeted := n :: q.targeted, ops := q.ops.push op }

/-- The node is the left side of an assignment in a static initializer. -/
def assignsInStaticInitializer (t : SyntaxTree) (n : NodeId) : Bool :=
  let isLhs := t.role n == .leftSide && match t.parent n with
    | some p => t.kind p == .assignment
    | none => false
  isLhs && match (t.ancestors n).find? fun a => (t.kind a).isBodyDeclaration with
    | some d => t.kind d == .initializer && (t.modifiers d).isStatic
    | none => false

/-- Qualifies a field used at a node. -/
def handleVariable (n : NodeId) (v : VarId) : QualifySearch :=
  let b := q.bindings
  let info := b.var v
  if info.kind != .field then q
  else match info.declaring with
    | none => q
    | some declaring =>
      if info.modifiers.isStatic then
        if !q.options.qualifyStaticField then q
        else if info.modifiers.isFinal && assignsInStaticInitializer q.tree n then q
        else if b.isAnonymous declaring then q
        else q.push n (.addStaticQualifier n declaring false)
      else if q.options.qualifyField then
        let (qual, imports) := thisQualifier b q.imports q.tree declaring n
        let q := { q with imports }
        match qual with
        | none => q
        | some s => q.push n (.addThisQualifier n info.name (if s.isEmpty then none else some s))
      else q

/-- Qualifies a method called by its name at a node. -/
def handleMethod (n : NodeId) (m : MethodId) : QualifySearch :=
  let b := q.bindings
  let info := b.method m
  let declaring := info.declaring
  if info.modifiers.isStatic then
    if !q.options.qualifyStaticMethod || b.isAnonymous declaring then q
    else q.push n (.addStaticQualifier n declaring true)
  else if q.options.qualifyMethod then
    let (qual, imports) := thisQualifier b q.imports q.tree declaring n
    let q := { q with imports }
    match qual with
    | none => q
    | some s => q.push n (.addThisQualifier n info.name (if s.isEmpty then none else some s))
  else q

/-- The expression a chain of field accesses starts from. -/
def chainRoot (t : SyntaxTree) (fuel : Nat) (e : Option NodeId) : Option NodeId :=
  match fuel, e with
  | fuel + 1, some x => if t.kind x == .fieldAccess then chainRoot t fuel (t.child x .expression) else some x
  | _, e => e

/-- Looks at a simple name. -/
def handleSimpleName (n : NodeId) : QualifySearch :=
  let t := q.tree
  match t.parent n with
  | none => q
  | some p =>
    let target? : Option NodeId :=
      match t.kind p with
      | .superFieldAccess => none
      | .fieldAccess =>
        match chainRoot t t.size (t.child p .expression) with
        | some r => if t.kind r == .simpleName then some r else none
        | none => none
      | .variableDeclarationFragment => if t.role n == .name then none else some n
      | _ => some n
    match target? with
    | none => q
    | some n =>
      if t.role n == .caseLabel then q
      else match t.binding n with
        | some (.var v) => q.handleVariable n v
        | _ => q

/-- The leftmost part of a qualified name. -/
def leftmost (t : SyntaxTree) (fuel : Nat) (n : NodeId) : Option NodeId :=
  match fuel with
  | 0 => some n
  | fuel + 1 =>
    if t.kind n != .qualifiedName then some n
    else match t.child n .qualifier with
      | some c => leftmost t fuel c
      | none => none

/-- The leftmost part of a qualified name, following qualifiers as far as they go. -/
def leftmostQualifier (t : SyntaxTree) (fuel : Nat) (n : NodeId) : NodeId :=
  match fuel, t.child n .qualifier with
  | fuel + 1, some c => leftmostQualifier t fuel c
  | _, _ => n

/-- Looks at one node and says whether to go below it. -/
def visit (q : QualifySearch) (n : NodeId) : QualifySearch × Bool :=
  let t := q.tree
  match t.kind n with
  | .typeDeclaration =>
    let isInterface := match (t.binding n).bind Binding.asType? with
      | some ty => (q.bindings.ty ty).kind == .interfaceType
      | none => false
    (q, !isInterface || q.options.anyQualify)
  | .qualifiedName =>
    if q.wantsFields then
      match leftmost t t.size n with
      | some l => (if t.kind l == .simpleName then q.handleSimpleName l else q, false)
      | none => (q, false)
    else (q, false)
  | .simpleName => (if q.wantsFields then q.handleSimpleName n else q, false)
  | .methodInvocation =>
    if q.wantsMethods && (t.child n .expression).isNone then
      match t.child n .name with
      | some nm =>
        match t.binding nm with
        | some (.method m) => (q.handleMethod nm m, true)
        | _ => (q, true)
      | none => (q, true)
    else (q, true)
  | _ => (q, true)

end QualifySearch

/-- The qualifications a unit needs under the options, in preorder. -/
def qualifyOperations (b : Bindings) (t : SyntaxTree) (o : CodeStyle) : List Operation :=
  let start : QualifySearch := { bindings := b, tree := t, options := o, imports := ImportPlan.ofTree t b }
  if t.nodes.size = 0 then [] else (t.walk QualifySearch.visit start SyntaxTree.root).ops.toList

end QuickFix
