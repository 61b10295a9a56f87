import QuickFix.Binding.Table
import QuickFix.Syntax.Tree

/-!
# Projects

A **project** is a binding table together with the syntax trees of its compilation units, one per
file and kept in order of file name; adding a unit for a file that has one replaces it. The
**source declaration** of a type is the node that declares its erasure in the unit the type was
declared in.
-/

namespace QuickFix

/-- A binding table and the units of the program, ordered by file name. -/
structure Project where
  bindings : Bindings
  units : List SyntaxTree := []
  deriving Inhabited

namespace Project

/-- Adds a unit, in file order, in place of any unit of the same file. -/
def addUnit (p : Project) (t : SyntaxTree) : Project :=
  { p with units := insert p.units }
where
  insert : List SyntaxTree → List SyntaxTree
    | [] => [t]
    | u :: us =>
      if u.file.name == t.file.name then t :: us
      else if t.file.name < u.file.name then t :: u :: us
      else u :: insert us

/-- The unit of a file. -/
def unit? (p : Project) (f : FileId) : Option SyntaxTree := p.units.find? (·.file == f)

/-- The unit and node that declare the erasure of a type. -/
def typeDeclaration (p : Project) (t : TypeId) : Option (SyntaxTree × NodeId) := do
  let e := p.bindings.erase t
  let file ← (p.bindings.ty e).sourceUnit
  let tree ← p.unit? file
  let node ← tree.findDeclaration (.type e)
  return (tree, node)

end Project

end QuickFix
