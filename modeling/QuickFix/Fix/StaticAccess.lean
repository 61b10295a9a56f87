import QuickFix.Fix.Operation
import QuickFix.Project.Problem
import QuickFix.Binding.Names

/-!
# Static members reached through an expression

A static field or method reached through an instance or a subtype should be reached through its
declaring type. For a problem at such an access, `staticAccessOperations` proposes to replace the
qualifier by the declaring type, when that type can be named from the unit, and, for an access
through an instance, also by the erased type of the instance if that differs. In conservative
mode, which clean-ups use, an access outside any statement or through a type that cannot be
named gets no proposal.

`resolveStaticAccesses` adds the first proposal for each wanted problem to a list of operations,
once per qualifier, dropping a `this` qualification of the same node; the conversions go last,
innermost first, so that a qualifier hoisted out of another is written before it.
-/

namespace QuickFix

/-- A type can be named from a unit when it is not package-private or is in the unit's package. -/
def accessibleFromUnit (b : Bindings) (t : SyntaxTree) (declaring : TypeId) : Bool :=
  !(b.ty declaring).modifiers.isPackagePrivate || b.packageOf declaring == t.package

/-- The ways to reach the static member of a problem through a type instead. -/
def staticAccessOperations (b : Bindings) (t : SyntaxTree) (p : Problem) (conservative : Bool) :
    List Operation := Id.run do
  let some node := p.coveringNode t | return []
  let node ← if t.kind node == .simpleName then
      match t.parent node with
      | some parent => pure parent
      | none => return []
    else pure node
  let nameBinding := (t.child node .name).bind t.binding
  let (qualifier, access) := match t.kind node with
    | .qualifiedName => (t.child node .qualifier, t.binding node <|> nameBinding)
    | .methodInvocation | .fieldAccess => (t.child node .expression, nameBinding)
    | _ => (none, none)
  let (some qualifier, some access) := (qualifier, access) | return []
  if conservative && (t.enclosingStatement qualifier).isNone then return []
  let declaring := match access with
    | .method m => some (b.method m).declaring
    | .var v => (b.var v).declaring
    | .type _ => none
  let some declaring := declaring.map b.erase | return []
  let indirect := p.kind.isIndirectStaticAccess
  let mut ops : List Operation := []
  if accessibleFromUnit b t declaring then
    ops := [.toStaticAccess qualifier declaring (b.ty declaring).name
      (if indirect then .indirect else .declaringType)]
  else if conservative then return []
  if !indirect then
    let inst := (t.typeBinding qualifier).filter fun ty =>
      !((b.ty ty).kind == .nullType || (b.ty ty).kind == .primitive)
    if let some inst := inst.map b.erase then
      if inst != declaring then
        ops := ops ++ [.toStaticAccess qualifier inst (b.ty inst).name .instanceType]
  return ops

/-- Conversions ordered by where their node ends, then starts later, then lies deeper. -/
def conversionBefore (t : SyntaxTree) (a c : Operation) : Bool :=
  let key := fun (op : Operation) =>
    let n := op.target?.getD SyntaxTree.root
    ((t.range n).stop, (t.range n).start, t.depth n)
  let (e1, s1, d1) := key a
  let (e2, s2, d2) := key c
  e1 < e2 || (e1 == e2 && (s1 > s2 || (s1 == s2 && d1 ≥ d2)))

/-- Adds the static-access conversions for the wanted problems to a list of operations. -/
def resolveStaticAccesses (b : Bindings) (t : SyntaxTree) (problems : List Problem)
    (nonStatic indirect : Bool) (ops : List Operation) : List Operation :=
  if !nonStatic && !indirect then ops
  else
    let (ops, conversions) := problems.foldl (fun (ops, convs) p =>
      let wanted := (nonStatic && p.kind.isNonStaticAccess) || (indirect && p.kind.isIndirectStaticAccess)
      if !wanted then (ops, convs)
      else match (staticAccessOperations b t p true).head? with
        | none => (ops, convs)
        | some conv =>
          match conv.target? with
          | none => (ops, convs)
          | some q =>
            if convs.any (·.target? == some q) then (ops, convs)
            else
              let isThisOf := fun (op : Operation) => match op with
                | .addThisQualifier n .. => n == q
                | _ => false
              let ops := match ops.findIdx? isThisOf with
                | some i => ops.eraseIdx i
                | none => ops
              (ops, convs ++ [conv])) (ops, [])
    ops ++ conversions.mergeSort (conversionBefore t)

end QuickFix
