import QuickFix.Binding.Names
import QuickFix.Syntax.Tree
import QuickFix.Edit.Basic

/-!
# Imports needed by a fix

When a fix writes a type into a unit it asks an `ImportPlan` for the name to write. A primitive
is written as itself; a type declared in the unit by its nested name; a top-level type of
`java.lang` or of the unit's package by its simple name, unless another type of that name is
declared or imported; a type imported already, or planned, by its simple name. Otherwise the
simple name is written if it is free, and an import is planned for the type unless an
on-demand import of its package exists; a clashing simple name makes the qualified name the
answer.

Planned imports are kept sorted by qualified name, each with the edit group that asked first;
`edits` places them after the last import, or after the package declaration, or at the start.
-/

namespace QuickFix

/-- What a unit imports and declares, and the imports planned so far. -/
structure ImportPlan where
  package : Option String
  existing : List ImportInfo
  localNames : List String
  localTypes : List TypeId
  added : List (String × Nat) := []
  deriving Inhabited

namespace ImportPlan

/-- The plan of a unit that adds nothing yet. -/
def ofTree (t : SyntaxTree) (b : Bindings) : ImportPlan :=
  let locals := t.preorder.filterMap fun n =>
    if t.kind n == .typeDeclaration then (t.binding n).bind Binding.asType? else none
  { package := t.package, existing := t.imports, localNames := locals.map fun ty => (b.ty ty).name,
    localTypes := locals }

/-- The last segment of a dotted name: what follows its last dot, or the whole name. -/
def lastSegment (s : String) : String :=
  String.ofList (s.toList.reverse.takeWhile (· != '.')).reverse

/-- The part of a dotted name before its last dot, if it has a dot. -/
def qualifier? (s : String) : Option String :=
  if s.toList.contains '.' then some (String.ofList (s.toList.reverse.dropWhile (· != '.')).reverse.dropLast)
  else none

/-- Inserts a planned import in order of name, unless it is planned already. -/
def insertSorted (name : String) (group : Nat) : List (String × Nat) → List (String × Nat)
  | [] => [(name, group)]
  | (n, g) :: rest =>
    if n == name then (n, g) :: rest
    else if name < n then (name, group) :: (n, g) :: rest
    else (n, g) :: insertSorted name group rest

variable (p : ImportPlan)

/-- Another type with this simple name is imported or planned. -/
def importsOther (simple qualified : String) : Bool :=
  p.existing.any (fun i => !i.isStatic && !i.onDemand && i.simpleName == simple && i.name != qualified) ||
  p.added.any fun (n, _) => n != qualified && lastSegment n == simple

/-- Whether an import of the name is planned. -/
def plans (qualified : String) : Bool := p.added.any (·.1 == qualified)

/-- The name to write for a type, and the plan after planning an import for it if one is needed. -/
def addImport (b : Bindings) (ty : TypeId) (group : Nat) : String × ImportPlan :=
  let ty := b.erase ty
  let info := b.ty ty
  if info.kind == .primitive || info.kind == .nullType then (info.name, p)
  else if p.localTypes.contains (b.topLevel ty) then (b.nestedName ty, p)
  else
    let simple := info.name
    let qualified := b.qualifiedName ty
    let pkg := b.packageOf ty
    if info.enclosing.isNone && (pkg == some "java.lang" || pkg == p.package) then
      if !p.localNames.contains simple && !p.importsOther simple qualified then (simple, p)
      else (qualified, p)
    else if p.existing.any (fun i => !i.isStatic && !i.onDemand && i.name == qualified) ||
        p.plans qualified then (simple, p)
    else if p.localNames.contains simple || p.importsOther simple qualified then (qualified, p)
    else
      let onDemand := p.existing.any fun i =>
        !i.isStatic && i.onDemand && some i.name == qualifier? qualified
      if onDemand then (simple, p)
      else (simple, { p with added := insertSorted qualified group p.added })

/-- The qualified names of the planned imports, in order. -/
def addedNames : List String := p.added.map (·.1)

/-- Some import is planned. -/
def hasChanges : Bool := !p.added.isEmpty

/-- The insertions that write the planned imports, each with its edit group. -/
def edits (t : SyntaxTree) (sep : String) : List (Nat × TextEdit) :=
  let lastImport := p.existing.getLast?.map fun i => (t.range i.node).stop
  let packageEnd := t.packageDeclaration.map fun n => (t.range n).stop
  let n := p.added.length
  p.added.zipIdx.map fun ((name, group), idx) =>
    let (offset, text) := match lastImport, packageEnd with
      | some e, _ => (e, sep ++ "import " ++ name ++ ";")
      | none, some e => if idx == 0 then (e, sep ++ sep ++ "import " ++ name ++ ";")
        else (e, sep ++ "import " ++ name ++ ";")
      | none, none => if idx + 1 == n then (0, "import " ++ name ++ ";" ++ sep ++ sep)
        else (0, "import " ++ name ++ ";" ++ sep)
    (group, ⟨t.file, Range.point offset, text⟩)

end ImportPlan

end QuickFix
