import QuickFix.Binding.Id
import QuickFix.Edit.Basic
import QuickFix.Syntax.Modifiers

/-!
# The binding table

What resolution knows about the declarations of a program: every type, method and variable, with
its name, owner, modifiers and types. Entries are never removed, so an id stays valid once made.

A new table holds the **well-known types** at fixed positions: `java.lang.Object` (0),
`java.lang.String` (1), the primitives `boolean byte short char int long float double` (2 to 9),
`void` (10) and the type of `null` (11). A type that instantiates a generic one records the generic
type as its `declaration`; **erasure** goes back to it.
-/

namespace QuickFix

/-- What sort of type an entry describes. -/
inductive TypeKind where
  | classType | interfaceType | enumType | annotationType | anonymousClass | primitive | nullType
  deriving DecidableEq, Repr, Inhabited

/-- What sort of variable an entry describes. -/
inductive VarKind where
  | field | enumConstant | localVar | parameter
  deriving DecidableEq, Repr, Inhabited

/-- A type of the program. -/
structure TypeInfo where
  name : String
  package : Option String := none
  kind : TypeKind
  modifiers : Modifiers := {}
  enclosing : Option TypeId := none
  superclass : Option TypeId := none
  interfaces : List TypeId := []
  typeArgs : List TypeId := []
  declaration : Option TypeId := none
  sourceUnit : Option FileId := none
  deriving Repr, Inhabited

/-- Interfaces and annotation types are interfaces. -/
def TypeInfo.isInterface (t : TypeInfo) : Bool :=
  t.kind == .interfaceType || t.kind == .annotationType

/-- A method or constructor of the program. -/
structure MethodInfo where
  name : String
  declaring : TypeId
  modifiers : Modifiers := {}
  params : List TypeId := []
  returnType : Option TypeId := none
  varargs : Bool := false
  isConstructor : Bool := false
  paramNames : List String := []
  declaration : Option MethodId := none
  deriving Repr, Inhabited

/-- A field, enum constant, local variable or parameter of the program. -/
structure VarInfo where
  name : String
  kind : VarKind
  declaring : Option TypeId := none
  modifiers : Modifiers := {}
  ty : Option TypeId := none
  declaration : Option VarId := none
  deriving Repr, Inhabited

/-- Fields and enum constants are fields. -/
def VarInfo.isField (v : VarInfo) : Bool := v.kind == .field || v.kind == .enumConstant

/-- Every declaration resolution knows about, by id. -/
structure Bindings where
  types : Array TypeInfo
  methods : Array MethodInfo := #[]
  vars : Array VarInfo := #[]
  deriving Repr, Inhabited

namespace Bindings

/-! ### Well-known types -/

def object : TypeId := ⟨0⟩
def string : TypeId := ⟨1⟩
def boolean : TypeId := ⟨2⟩
def byte : TypeId := ⟨3⟩
def short : TypeId := ⟨4⟩
def char : TypeId := ⟨5⟩
def int : TypeId := ⟨6⟩
def long : TypeId := ⟨7⟩
def float : TypeId := ⟨8⟩
def double : TypeId := ⟨9⟩
def void : TypeId := ⟨10⟩
def null : TypeId := ⟨11⟩

/-- The names of the primitive types, `void` included, in table order. -/
def primitiveNames : List String :=
  ["boolean", "byte", "short", "char", "int", "long", "float", "double", "void"]

/-- A table that holds only the well-known types. -/
def empty : Bindings where
  types := #[
    { name := "Object", package := some "java.lang", kind := .classType,
      modifiers := Modifiers.publicOnly },
    { name := "String", package := some "java.lang", kind := .classType,
      modifiers := { isPublic := true, isFinal := true }, superclass := some object }] ++
    (primitiveNames.map fun n => ({ name := n, kind := .primitive } : TypeInfo)).toArray ++
    #[{ name := "null", kind := .nullType }]

/-- The primitive type of a name, `void` included. -/
def primitive? (name : String) : Option TypeId :=
  (primitiveNames.idxOf? name).map fun i => ⟨i + 2⟩

variable (b : Bindings)

/-! ### Looking up entries -/

/-- The entry of a type. -/
def ty (t : TypeId) : TypeInfo := b.types[t.idx]?.getD default

/-- The entry of a method. -/
def method (m : MethodId) : MethodInfo := b.methods[m.idx]?.getD default

/-- The entry of a variable. -/
def var (v : VarId) : VarInfo := b.vars[v.idx]?.getD default

/-- The name of the declaration a binding refers to. -/
def name : Binding → String
  | .type t => (b.ty t).name
  | .method m => (b.method m).name
  | .var v => (b.var v).name

/-! ### Adding entries -/

/-- Adds a type; a class, enum or anonymous class without a superclass extends `Object`. -/
def addType (t : TypeInfo) : Bindings × TypeId :=
  let t := if t.superclass.isNone &&
      (t.kind == .classType || t.kind == .enumType || t.kind == .anonymousClass)
    then { t with superclass := some object } else t
  ({ b with types := b.types.push t }, ⟨b.types.size⟩)

/-- Adds a method. -/
def addMethod (m : MethodInfo) : Bindings × MethodId :=
  ({ b with methods := b.methods.push m }, ⟨b.methods.size⟩)

/-- Adds a variable. -/
def addVar (v : VarInfo) : Bindings × VarId :=
  ({ b with vars := b.vars.push v }, ⟨b.vars.size⟩)

/-- Changes the entry of a type. -/
def modifyType (t : TypeId) (f : TypeInfo → TypeInfo) : Bindings :=
  { b with types := b.types.modify t.idx f }

/-- Changes the entry of a method. -/
def modifyMethod (m : MethodId) (f : MethodInfo → MethodInfo) : Bindings :=
  { b with methods := b.methods.modify m.idx f }

/-- Changes the entry of a variable. -/
def modifyVar (v : VarId) (f : VarInfo → VarInfo) : Bindings :=
  { b with vars := b.vars.modify v.idx f }

/-- Adds the instantiation of a generic type with type arguments: a copy of the generic entry
that names it as its declaration. -/
def parameterize (generic : TypeId) (args : List TypeId) : Bindings × TypeId :=
  ({ b with types := b.types.push { b.ty generic with typeArgs := args, declaration := some generic } },
   ⟨b.types.size⟩)

/-! ### Erasure and kinds -/

/-- The generic declaration of a type, or the type itself. -/
def erase (t : TypeId) : TypeId := (b.ty t).declaration.getD t

/-- The generic declaration of a method, or the method itself. -/
def eraseMethod (m : MethodId) : MethodId := (b.method m).declaration.getD m

/-- The generic declaration of a variable, or the variable itself. -/
def eraseVar (v : VarId) : VarId := (b.var v).declaration.getD v

/-- Erases whatever a binding refers to. -/
def eraseBinding : Binding → Binding
  | .type t => .type (b.erase t)
  | .method m => .method (b.eraseMethod m)
  | .var v => .var (b.eraseVar v)

def isAnonymous (t : TypeId) : Bool := (b.ty t).kind == .anonymousClass
def isPrimitive (t : TypeId) : Bool := (b.ty t).kind == .primitive

/-- Every type but the primitives and the type of `null` is a reference type. -/
def isReference (t : TypeId) : Bool :=
  !((b.ty t).kind == .primitive || (b.ty t).kind == .nullType)

def isInterface (t : TypeId) : Bool := (b.ty t).isInterface

/-- The superclass, then the interfaces, of a type. -/
def supertypes (t : TypeId) : List TypeId :=
  (b.ty t).superclass.toList ++ (b.ty t).interfaces

/-- The fields and enum constants that a type declares, in id order. -/
def declaredFields (t : TypeId) : List VarId :=
  (List.range b.vars.size).filterMap fun i =>
    let v := b.var ⟨i⟩
    if v.isField && v.declaring == some t then some ⟨i⟩ else none

/-- The methods and constructors that a type declares, in id order. -/
def declaredMethods (t : TypeId) : List MethodId :=
  (List.range b.methods.size).filterMap fun i =>
    if (b.method ⟨i⟩).declaring == t then some ⟨i⟩ else none

/-- The constructors of the erasure of a type, in id order. -/
def constructors (t : TypeId) : List MethodId :=
  (b.declaredMethods (b.erase t)).filter fun m => (b.method m).isConstructor

/-- Two methods take parameters of the same erased types. -/
def sameParameters (m n : MethodId) : Bool :=
  let p := (b.method m).params
  let q := (b.method n).params
  p.length == q.length && (p.zip q).all fun (x, y) => b.erase x == b.erase y

end Bindings

end QuickFix
