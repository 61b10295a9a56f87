import QuickFix.Outline.Render
import QuickFix.Project.Basic

/-!
# Setting up a program

A program is given as a list of **declarations**, which fill a binding table, and a list of unit
outlines, which are rendered against it. Each declaration is known afterwards by a **key**: the
one it names, or else its own name; a later declaration with the same key hides an earlier one.
A key that names no type may still be a well-known type's simple name.

Types are public by default, except nested ones; a method without a result type returns `void`;
the parameters of a method become variables right after it, known by the method's key, `#` and
their position.
-/

namespace QuickFix

/-- A declaration of the binding table, referring to earlier ones by key. -/
inductive Declaration where
  /-- A top-level type, or a member type of `outer`. -/
  | type (kind : TypeKind) (name package : String) (mods : Option Modifiers) (outer : Option String)
      (key : String)
  /-- An anonymous class inside `outer` that extends or implements `super`. -/
  | anonymous (key outer super : String)
  /-- An instantiation of a generic type. -/
  | parameterize (generic : String) (args : List String) (key : String)
  /-- Makes `sup` the superclass of `sub`, or adds it to the interfaces of `sub`. -/
  | extend (sub sup : String)
  | field (name owner ty : String) (mods : Modifiers) (erasesTo : Option String) (key : String)
  | constant (name owner key : String)
  | localVar (name ty key : String)
  | method (name owner : String) (params : List (String × String)) (ret : Option String)
      (mods : Modifiers) (varargs : Bool) (erasesTo : Option String) (key : String)
  | constructor (owner : String) (params : List (String × String)) (mods : Modifiers)
      (varargs : Bool) (key : String)
  deriving Repr, Inhabited

/-- A binding table under construction, with the keys of its entries and the units rendered. -/
structure Setup where
  bindings : Bindings := Bindings.empty
  params : List (MethodId × List VarId) := []
  typeKeys : List (String × TypeId) := []
  methodKeys : List (String × MethodId) := []
  varKeys : List (String × VarId) := []
  units : List SyntaxTree := []
  deriving Inhabited

namespace Setup

/-- The simple names of the well-known types, with their ids. -/
def wellKnownNames : List (String × TypeId) :=
  [("Object", Bindings.object), ("String", Bindings.string), ("void", Bindings.void),
   ("boolean", Bindings.boolean), ("byte", Bindings.byte), ("short", Bindings.short),
   ("char", Bindings.char), ("int", Bindings.int), ("long", Bindings.long),
   ("float", Bindings.float), ("double", Bindings.double), ("null", Bindings.null)]

variable (s : Setup)

/-- The type a key names. -/
def typeKey (k : String) : Except String TypeId :=
  match s.typeKeys.lookup k <|> wellKnownNames.lookup k with
  | some t => .ok t
  | none => .error s!"unknown type {k}"

/-- The method a key names. -/
def methodKey (k : String) : Except String MethodId :=
  match s.methodKeys.lookup k with
  | some m => .ok m
  | none => .error s!"unknown method {k}"

/-- The variable a key names. -/
def varKey (k : String) : Except String VarId :=
  match s.varKeys.lookup k with
  | some v => .ok v
  | none => .error s!"unknown variable {k}"

/-- The parameters of a method. -/
def paramsOf (m : MethodId) : List VarId := (s.params.lookup m).getD []

def withType (key : String) (r : Bindings × TypeId) : Setup :=
  { s with bindings := r.1, typeKeys := (key, r.2) :: s.typeKeys }

/-- Adds a method and its parameters, all under the method's key. -/
def addMethod (key : String) (m : MethodInfo) (params : List (TypeId × String)) : Setup :=
  let (b, id) := s.bindings.addMethod m
  let (b, vars) := params.foldl (fun (b, acc) (t, n) =>
    let (b, v) := b.addVar { name := n, kind := .parameter, ty := some t }
    (b, acc ++ [v])) (b, [])
  let keys := (vars.zipIdx.map fun (v, i) => (key ++ "#" ++ toString i, v)).reverse
  { s with bindings := b, methodKeys := (key, id) :: s.methodKeys,
           params := (id, vars) :: s.params, varKeys := keys ++ s.varKeys }

/-- Adds one declaration, or names the key it refers to that is unknown. -/
def declare : Declaration → Except String Setup
  | .type kind name pkg mods outer key => do
    match outer with
    | some o =>
      let ot ← s.typeKey o
      let info : TypeInfo :=
        { name := name, kind := .classType, modifiers := mods.getD {}, enclosing := some ot }
      let (b, id) := s.bindings.addType info
      return s.withType key (b.modifyType id fun t => { t with kind }, id)
    | none =>
      let info : TypeInfo :=
        { name := name, kind := kind, package := if pkg.isEmpty then none else some pkg,
          modifiers := mods.getD Modifiers.publicOnly }
      return s.withType key (s.bindings.addType info)
  | .anonymous key outer sup => do
    let ot ← s.typeKey outer
    let st ← s.typeKey sup
    let info : TypeInfo := { name := "", kind := .anonymousClass, enclosing := some ot }
    let info := if s.bindings.isInterface st then { info with interfaces := [st] }
      else { info with superclass := some st }
    return s.withType key (s.bindings.addType info)
  | .parameterize generic args key => do
    let g ← s.typeKey generic
    let as ← args.mapM s.typeKey
    return s.withType key (s.bindings.parameterize g as)
  | .extend sub sup => do
    let a ← s.typeKey sub
    let c ← s.typeKey sup
    let iface := s.bindings.isInterface c
    let b := s.bindings.modifyType a fun t =>
      if iface then { t with interfaces := t.interfaces ++ [c] } else { t with superclass := some c }
    return { s with bindings := b }
  | .field name owner ty mods erasesTo key => do
    let o ← s.typeKey owner
    let t ← s.typeKey ty
    let decl ← erasesTo.mapM s.varKey
    let info : VarInfo :=
      { name := name, kind := .field, declaring := some o, modifiers := mods, ty := some t,
        declaration := decl }
    let (b, v) := s.bindings.addVar info
    return { s with bindings := b, varKeys := (key, v) :: s.varKeys }
  | .constant name owner key => do
    let o ← s.typeKey owner
    let mods : Modifiers := { isPublic := true, isStatic := true, isFinal := true }
    let info : VarInfo :=
      { name := name, kind := .enumConstant, declaring := some o, modifiers := mods, ty := some o }
    let (b, v) := s.bindings.addVar info
    return { s with bindings := b, varKeys := (key, v) :: s.varKeys }
  | .localVar name ty key => do
    let t ← s.typeKey ty
    let (b, v) := s.bindings.addVar { name := name, kind := .localVar, ty := some t }
    return { s with bindings := b, varKeys := (key, v) :: s.varKeys }
  | .method name owner params ret mods varargs erasesTo key => do
    let o ← s.typeKey owner
    let ps ← params.mapM fun (t, n) => do return (← s.typeKey t, n)
    let r ← match ret with
      | some r => s.typeKey r
      | none => pure Bindings.void
    let decl ← erasesTo.mapM s.methodKey
    let info : MethodInfo :=
      { name := name, declaring := o, modifiers := mods, params := ps.map (·.1),
        returnType := some r, varargs := varargs, paramNames := ps.map (·.2), declaration := decl }
    return s.addMethod key info ps
  | .constructor owner params mods varargs key => do
    let o ← s.typeKey owner
    let ps ← params.mapM fun (t, n) => do return (← s.typeKey t, n)
    let info : MethodInfo :=
      { name := (s.bindings.ty o).name, declaring := o, modifiers := mods,
        params := ps.map (·.1), varargs := varargs, isConstructor := true,
        paramNames := ps.map (·.2) }
    return s.addMethod key info ps

/-- Renders a unit against the table, and records it as the source unit of the types it
declares. -/
def writeUnit (u : Outline.SourceUnit) : Except TreeError Setup := do
  let (tree, declared) ← u.render ⟨s.bindings, s.paramsOf⟩
  let b := declared.foldl (fun b t => b.modifyType t fun i => { i with sourceUnit := some ⟨u.file⟩ })
    s.bindings
  return { s with bindings := b, units := s.units ++ [tree] }

/-- The project of the table and the units, later units of a file replacing earlier ones. -/
def project : Project := s.units.foldl Project.addUnit { bindings := s.bindings }

end Setup

end QuickFix
