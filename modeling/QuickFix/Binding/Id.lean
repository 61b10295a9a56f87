/-!
# Identities of declarations

Types, methods and variables are known by their position in the binding table. A **binding**
says which declaration a piece of syntax refers to; two bindings are the same only when they name
the same entry (a generic type and one of its instantiations are different entries).
-/

namespace QuickFix

/-- The position of a type in the binding table. -/
structure TypeId where
  idx : Nat
  deriving DecidableEq, Repr, Inhabited, Hashable

/-- The position of a method or constructor in the binding table. -/
structure MethodId where
  idx : Nat
  deriving DecidableEq, Repr, Inhabited, Hashable

/-- The position of a field, constant, local or parameter in the binding table. -/
structure VarId where
  idx : Nat
  deriving DecidableEq, Repr, Inhabited, Hashable

/-- The declaration a piece of syntax refers to. -/
inductive Binding where
  | type (t : TypeId)
  | method (m : MethodId)
  | var (v : VarId)
  deriving DecidableEq, Repr, Inhabited

namespace Binding

/-- The type named, if the binding names a type. -/
def asType? : Binding → Option TypeId
  | type t => some t
  | _ => none

/-- The method named, if the binding names a method. -/
def asMethod? : Binding → Option MethodId
  | method m => some m
  | _ => none

/-- The variable named, if the binding names a variable. -/
def asVar? : Binding → Option VarId
  | var v => some v
  | _ => none

end Binding

end QuickFix
