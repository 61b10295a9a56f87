import QuickFix.Binding.Hierarchy
import QuickFix.Syntax.Tree

/-!
# Names in scope

What a plain name would refer to if it were written at a node: the last local variable of that
name declared before it in an enclosing block or switch, else a parameter of the enclosing
method, else the first visible field of that name along the hierarchy of an enclosing type,
innermost scope first. Method names resolve to the visible methods of the innermost enclosing
type that has any of that name.

A member is **accessible** from a type when it is public or protected, when it is private and
both types have the same top-level type, or when it is package-private and both types are in the
same package. Removing a qualifier is safe only when the plain name would still refer to the same
declaration (`hasVariableConflict`, `hasMethodConflict`).
-/

namespace QuickFix

/-- Whether a member with the modifiers, declared in `declaring`, is accessible from `site`. -/
def Bindings.isAccessible (b : Bindings) (m : Modifiers) (declaring site : TypeId) : Bool :=
  if m.isPublic || m.isProtected then true
  else if m.isPrivate then b.topLevel declaring == b.topLevel site
  else b.packageOf declaring == b.packageOf site

/-- Name lookup in one unit. -/
structure Scope where
  bindings : Bindings
  tree : SyntaxTree

namespace Scope

variable (sc : Scope)

/-- The first field with a name along the hierarchy of a type that is its own or visible from
`site`. -/
def visibleField (ty : TypeId) (name : String) (site : TypeId) : Option VarId :=
  let b := sc.bindings
  let own := b.erase ty
  (b.hierarchy ty).findSome? fun holder =>
    (b.declaredFields holder).find? fun f =>
      (b.var f).name == name && (holder == own || b.isAccessible (b.var f).modifiers holder site)

/-- The local variable declared by a name in a block or switch before a position. -/
def localBefore (scope : NodeId) (name : String) (pos : Nat) : Option VarId :=
  let t := sc.tree
  let stmts := (t.childrenWithRole scope .statement).filter fun s =>
    t.kind s == .variableDeclarationStatement && (t.range s).start < pos
  let frags := (stmts.flatMap fun s => t.childrenWithRole s .fragment).filter fun f =>
    t.identifier f == some name && (t.range f).start < pos
  (frags.filterMap fun f => (t.binding f).bind Binding.asVar?).getLast?

/-- The variable a plain name written at a node refers to. -/
def resolveVariable (at_ : NodeId) (name : String) : Option VarId :=
  let t := sc.tree
  let pos := (t.range at_).start
  let site := t.enclosingType at_
  (t.ancestors at_).findSome? fun scope =>
    match t.kind scope with
    | .block | .switchStatement => sc.localBefore scope name pos
    | .methodDeclaration =>
      ((t.childrenWithRole scope .parameter).find? fun p => t.identifier p == some name).bind
        fun p => (t.binding p).bind Binding.asVar?
    | .typeDeclaration | .anonymousClassDeclaration =>
      match t.binding scope with
      | some (.type ty) => sc.visibleField ty name (site.getD ty)
      | _ => none
    | _ => none

/-- The methods a plain call of a name written at a node could refer to. -/
def resolveMethods (at_ : NodeId) (name : String) : List MethodId :=
  let b := sc.bindings
  let t := sc.tree
  let site := t.enclosingType at_
  ((t.ancestors at_).findSome? fun scope =>
    if !(t.kind scope).isTypeBody then none
    else match t.binding scope with
      | some (.type ty) =>
        let own := b.erase ty
        let ms := (b.methodsNamed ty name).filter fun m =>
          (b.method m).declaring == own ||
            b.isAccessible (b.method m).modifiers (b.method m).declaring (site.getD ty)
        if ms.isEmpty then none else some ms
      | _ => none).getD []

/-- A plain name at the node would not refer to the variable, nor to the same field. -/
def hasVariableConflict (at_ : NodeId) (cur : VarId) : Bool :=
  let b := sc.bindings
  match sc.resolveVariable at_ (b.var cur).name with
  | none => true
  | some found =>
    if found == cur then false
    else !((b.var found).isField && (b.var cur).isField && b.eraseVar found == b.eraseVar cur)

/-- A plain call at the node would not refer to the method. -/
def hasMethodConflict (at_ : NodeId) (cur : MethodId) : Bool :=
  let b := sc.bindings
  let cur := b.eraseMethod cur
  match (sc.resolveMethods at_ (b.method cur).name).find? fun c => b.sameParameters c cur with
  | some c => b.eraseMethod c != cur
  | none => true

/-- A plain name at the node would refer to something else than the binding. -/
def hasConflict (at_ : NodeId) : Binding → Bool
  | .var v => sc.hasVariableConflict at_ v
  | .method m => sc.hasMethodConflict at_ m
  | .type _ => false

end Scope

end QuickFix
