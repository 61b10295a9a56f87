import QuickFix.Binding.Names

/-!
# The type hierarchy

The supertypes of a type are its superclass and its interfaces. `reachable` lists, breadth first
and each once, the types reached from a start by repeated steps; a type's **hierarchy** is what
its erasure reaches through erased supertypes, and **sub-typing** asks whether one type reaches
another. An instantiation of a generic type that records no superclass of its own takes the
supertypes of its generic declaration as well.

Every type of the walk is new, so the walk ends after at most as many steps as the table has
types; `reachable` is given that many steps and one more.
-/

namespace QuickFix

/-- The elements reached from `queue` by `step`, breadth first, each once, after the ones already
`seen` (which are listed last first); at most `fuel` new ones are taken. -/
def reachFrom {α : Type} [BEq α] (step : α → List α) : Nat → List α → List α → List α
  | 0, _, seen => seen.reverse
  | fuel + 1, queue, seen =>
    match queue.dropWhile seen.contains with
    | [] => seen.reverse
    | x :: rest => reachFrom step fuel (rest ++ step x) (x :: seen)

namespace Bindings

variable (b : Bindings)

/-- The types reached from a start by repeated steps, breadth first, each once. -/
def reachable (step : TypeId → List TypeId) (start : TypeId) : List TypeId :=
  reachFrom step (b.types.size + 1) [start] []

/-- The erasure of a type, then the erasures of its supertypes, theirs, and so on, each once. -/
def hierarchy (t : TypeId) : List TypeId :=
  b.reachable (fun s => (b.supertypes s).map b.erase) (b.erase t)

/-- The form in which sub-typing compares types: with `typeArgs` a type itself, without them its
erasure. -/
def normalize (typeArgs : Bool) (t : TypeId) : TypeId := if typeArgs then t else b.erase t

/-- The supertypes that the sub-typing walk steps to from a type, normalized: its superclass and
interfaces, and those of its generic declaration when it is an instantiation that records no
superclass of its own. -/
def subtypeStep (typeArgs : Bool) (cur : TypeId) : List TypeId :=
  let info := b.ty cur
  let inherited := match info.declaration with
    | some decl => if info.superclass.isNone then b.supertypes decl else []
    | none => []
  (b.supertypes cur ++ inherited).map (b.normalize typeArgs)

/-- Whether `sup` is a supertype of `t`, itself included. With `typeArgs` off both sides are
erased first. A primitive or `null` is only a subtype of itself, and every reference type is a
subtype of `Object`. -/
def isSubtype (sup t : TypeId) (typeArgs : Bool) : Bool :=
  if !b.isReference t || !b.isReference sup then sup == t
  else
    let target := b.normalize typeArgs sup
    (b.reachable (b.subtypeStep typeArgs) (b.normalize typeArgs t)).contains target ||
      target == object

/-- The methods, not constructors, with a name, declared anywhere in the hierarchy of a type:
types in hierarchy order, each type's methods in id order. -/
def methodsNamed (t : TypeId) (name : String) : List MethodId :=
  ((b.hierarchy t).flatMap b.declaredMethods).filter fun m =>
    !(b.method m).isConstructor && (b.method m).name == name

/-- The first field with a name along the hierarchy of a type. -/
def fieldNamed (t : TypeId) (name : String) : Option VarId :=
  (b.hierarchy t).findSome? fun s => (b.declaredFields s).find? fun f => (b.var f).name == name

end Bindings

end QuickFix
