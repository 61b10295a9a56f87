import QuickFix.Fix.Scope
import QuickFix.Fix.Operation
import QuickFix.Binding.Assign

/-!
# Redundant `this` qualifiers

A `this.` before a field or a method call can go when the plain name would refer to the same
declaration. With an outer class's `this`, the field must be declared by that class and the
enclosing type must not be a subtype of it; the method is kept qualified when both the outer
class and the innermost enclosing type declaration can be assigned to its declaring type.
-/

namespace QuickFix

/-- Finds the `this.` qualifiers that can be removed from a unit. -/
structure ThisQualifierSearch where
  scope : Scope
  fields : Bool
  methods : Bool

namespace ThisQualifierSearch

variable (q : ThisQualifierSearch)

/-- The `this` receiver of a field access or call. -/
def thisReceiver (t : SyntaxTree) (n : NodeId) : Option NodeId :=
  (t.child n .expression).filter fun r => t.kind r == .thisExpression

/-- The removal for a field access, if it is one. -/
def fieldAccess (n : NodeId) : Option Operation := do
  let t := q.scope.tree
  let b := q.scope.bindings
  let this ← thisReceiver t n
  let some (.var v) := (t.child n .name).bind t.binding | none
  if q.scope.hasVariableConflict this v then none
  if let some qual := t.child this .qualifier then
    let some (.type outer) := t.binding qual | none
    let declaring ← (b.var v).declaring
    if outer != declaring then none
    match t.enclosingType n with
    | some enc => if b.isSubtype declaring enc true then none
    | none => none
  some (.removeThisQualifier (.field n))

/-- The removal for a call, if it is one. -/
def methodInvocation (n : NodeId) : Option Operation := do
  let t := q.scope.tree
  let b := q.scope.bindings
  let this ← thisReceiver t n
  let some (.method m) := (t.child n .name).bind t.binding | none
  if q.scope.hasMethodConflict this m then none
  if let some qual := t.child this .qualifier then
    let declaring := (b.method m).declaring
    let caller := ((t.ancestors n).find? fun a => t.kind a == .typeDeclaration).bind
      fun a => (t.binding a).bind Binding.asType?
    let callee := (t.binding qual).bind Binding.asType?
    match caller, callee with
    | some caller, some callee =>
      if b.isAssignable callee declaring && b.isAssignable caller declaring then none
    | _, _ => pure ()
  some (.removeThisQualifier (.method n))

/-- The removals of the unit, in preorder. -/
def collect : List Operation :=
  q.scope.tree.preorder.filterMap fun n =>
    match q.scope.tree.kind n with
    | .fieldAccess => if q.fields then q.fieldAccess n else none
    | .methodInvocation => if q.methods then q.methodInvocation n else none
    | _ => none

end ThisQualifierSearch

end QuickFix
