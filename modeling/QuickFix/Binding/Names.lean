import QuickFix.Binding.Table

/-!
# Names of types

A type nested in another is named through it: its **qualified name** is the outer type's
qualified name, a dot and its own name, and a top-level type's is its package, a dot and its name.
The **binary name** joins nested names with `$`, the **nested name** leaves the package out, and
the **display** form shows type arguments. An anonymous class has the empty qualified name.

Each walk outwards reads the entry of the erasure of the type it is at and goes on to the type that
entry names as enclosing. It follows at most as many links as the table has types: in a table
whose enclosing links have no cycle no chain is longer, and on a cycle the walk stops there, taking
the type it stopped at for a top-level one.
-/

namespace QuickFix

namespace Bindings

variable (b : Bindings)

/-- The qualified name of the erasure of a type, following at most `fuel` enclosing types. -/
def qualifiedNameWithin : Nat → TypeId → String
  | fuel, t =>
    let info := b.ty (b.erase t)
    match info.kind with
    | .anonymousClass => ""
    | .primitive | .nullType => info.name
    | _ =>
      match info.enclosing, fuel with
      | some outer, fuel + 1 => qualifiedNameWithin fuel outer ++ "." ++ info.name
      | _, _ =>
        match info.package with
        | some pkg => pkg ++ "." ++ info.name
        | none => info.name

/-- The fully qualified name of the erasure of a type. -/
def qualifiedName (t : TypeId) : String := b.qualifiedNameWithin b.types.size t

/-- The binary name, following at most `fuel` enclosing types. -/
def binaryNameWithin : Nat → TypeId → String
  | fuel, t =>
    let info := b.ty (b.erase t)
    match info.enclosing, fuel with
    | some outer, fuel + 1 => binaryNameWithin fuel outer ++ "$" ++ info.name
    | _, _ => b.qualifiedName t

/-- The name by which the class file of a type is known: nested names are joined by `$`. -/
def binaryName (t : TypeId) : String := b.binaryNameWithin b.types.size t

/-- The nested name, following at most `fuel` enclosing types. -/
def nestedNameWithin : Nat → TypeId → String
  | fuel, t =>
    let info := b.ty (b.erase t)
    match info.enclosing, fuel with
    | some outer, fuel + 1 =>
      if info.kind == .anonymousClass then info.name
      else nestedNameWithin fuel outer ++ "." ++ info.name
    | _, _ => info.name

/-- The name of a type inside its top-level type, such as `Outer.Inner`. -/
def nestedName (t : TypeId) : String := b.nestedNameWithin b.types.size t

/-- The outermost type reached from `cur` in at most `fuel` steps, each step erasing the type
that encloses the one before. -/
def topLevelWithin : Nat → TypeId → TypeId
  | fuel + 1, cur =>
    match (b.ty cur).enclosing with
    | some outer => topLevelWithin fuel (b.erase outer)
    | none => cur
  | 0, cur => cur

/-- The top-level type that holds the erasure of a type. -/
def topLevel (t : TypeId) : TypeId := b.topLevelWithin b.types.size (b.erase t)

/-- The types that enclose a type, innermost first, at most `fuel` of them. -/
def enclosingTypesWithin : Nat → TypeId → List TypeId
  | fuel + 1, t =>
    match (b.ty t).enclosing with
    | some outer => outer :: enclosingTypesWithin fuel outer
    | none => []
  | 0, _ => []

/-- The types that enclose a type, innermost first. -/
def enclosingTypes (t : TypeId) : List TypeId := b.enclosingTypesWithin b.types.size t

/-- The package of the top-level type that holds a type. -/
def packageOf (t : TypeId) : Option String := (b.ty (b.topLevel t)).package

/-- A type as source code writes it: its name and its type arguments, if any. -/
def display (t : TypeId) : String :=
  let info := b.ty t
  if info.typeArgs.isEmpty then info.name
  else
    let args := info.typeArgs.attach.map fun ⟨a, _⟩ => if a.idx < t.idx then display a else (b.ty a).name
    info.name ++ "<" ++ ", ".intercalate args ++ ">"
termination_by t.idx

/-- The first generic-free, named type with a given qualified name. -/
def findType (qualified : String) : Option TypeId :=
  ((List.range b.types.size).map TypeId.mk).find? fun t =>
    (b.ty t).declaration.isNone && !b.isAnonymous t && b.qualifiedName t == qualified

/-! ### Descriptions of entries

A description names an entry uniquely: its kind letter and id, and what it is. -/

/-- A type: its qualified name with its type arguments, or `$anon` and its id. -/
def describeType (t : TypeId) : String :=
  if b.isAnonymous t then s!"$anon{t.idx}"
  else
    let args := (b.ty t).typeArgs
    if args.isEmpty then b.qualifiedName t
    else
      let parts := args.attach.map fun ⟨a, _⟩ =>
        if a.idx < t.idx then describeType a else b.qualifiedName a
      b.qualifiedName t ++ "<" ++ ",".intercalate parts ++ ">"
termination_by t.idx

/-- A method: id, declaring type, name and parameter types. -/
def describeMethod (m : MethodId) : String :=
  let info := b.method m
  s!"M{m.idx}:{b.describeType info.declaring}.{info.name}(" ++
    ",".intercalate (info.params.map b.describeType) ++ ")"

/-- A variable: id and name. -/
def describeVar (v : VarId) : String := s!"V{v.idx}:{(b.var v).name}"

/-- A binding by what it refers to. -/
def describe : Binding → String
  | .type t => s!"T{t.idx}:{b.describeType t}"
  | .method m => b.describeMethod m
  | .var v => b.describeVar v

end Bindings

end QuickFix
